import SeededArt.Decimal.Numeral
/-!
# Numbers of a JSON text

A number without fraction and exponent is an integer if it fits 64 bits, except for the negative
zero; every other number is a double. The digits are collected in 64 bits, further digits only
move the exponent, and the double is the product or quotient of the collected digits and a power of
ten, each rounded once.
-/

namespace SeededArt.Json

open Decimal

/-- A number. -/
inductive Number where
  | integer (value : Int)
  | float (value : Float)

/-- The first natural number that does not fit 64 bits. -/
def wordLimit : Nat := raise 2 64

/-- Appends digits to a number as long as it fits 64 bits. Answers the number, how many digits were
appended, and the rest. -/
def absorb (value : Nat) : List Char → Nat × Nat × List Char
  | [] => (value, 0, [])
  | c :: rest =>
    let longer := 10 * value + (c.toNat - '0'.toNat)
    if c.isDigit && longer < wordLimit then
      let (value, n, rest) := absorb longer rest
      (value, n + 1, rest)
    else (value, 0, c :: rest)

def digitAhead (cs : List Char) : Bool := cs.head?.any Char.isDigit

def exponentAhead (cs : List Char) : Bool := cs.head?.any fun c => c == 'e' || c == 'E'

/-- The double `10 ^ n`, up to the greatest power of ten that is one. -/
def powerOfTen (n : Nat) : Float := (Numeral.finite false 1 n).toFloat

/-- The greatest power of ten that is a double. -/
def greatestPower : Nat := 308

/-- A double times a power of ten; `none` if it is too great. Small powers are taken in several
steps, whose number `fuel` bounds: after three of them nothing is left. -/
def scale? : (fuel : Nat) → Float → Int → Option Float
  | 0, value, _ => some value
  | fuel + 1, value, exponent =>
    if exponent.natAbs ≤ greatestPower then
      let power := powerOfTen exponent.natAbs
      if 0 ≤ exponent then
        let product := value * power
        if product.isInf then none else some product
      else some (value / power)
    else if value == 0.0 then some value
    else if 0 ≤ exponent then none
    else scale? fuel (value / powerOfTen greatestPower) (exponent + greatestPower)

def signedFloat? (negative : Bool) (digits : Nat) (exponent : Int) : Option Number :=
  (scale? 4 (doubleOfNat digits) exponent).map fun value =>
    .float (if negative then -value else value)

/-- Finishes a number at its exponent, if there is one. -/
def exponent? (negative : Bool) (digits : Nat) (exponent : Int) (cs : List Char) :
    Option (Number × List Char) :=
  if exponentAhead cs then do
    let (down, cs) := splitSign (cs.drop 1)
    guard (digitAhead cs)
    let (power, cs) := spanDigits cs
    let shift : Int := if down then -digitsValue power else digitsValue power
    return (← signedFloat? negative digits (exponent + shift), cs)
  else (signedFloat? negative digits exponent).map fun value => (value, cs)

/-- Finishes a number after its point, which needs a digit after it. -/
def fraction? (negative : Bool) (digits : Nat) (exponent : Int) (cs : List Char) :
    Option (Number × List Char) :=
  let (digits, n, rest) := absorb digits cs
  if digitAhead rest then exponent? negative digits (exponent - n) (spanDigits rest).2
  else if n = 0 then none
  else exponent? negative digits (exponent - n) rest

/-- The number of an integer. -/
def ofDigits (negative : Bool) (digits : Nat) : Number :=
  if !negative then .integer digits
  else if digits = 0 ∨ raise 2 63 < digits then .float (-(doubleOfNat digits))
  else .integer (-digits)

/-- Finishes a number after its whole digits. -/
def finish? (negative : Bool) (digits : Nat) (cs : List Char) : Option (Number × List Char) :=
  if cs.head? = some '.' then fraction? negative digits 0 (cs.drop 1)
  else if exponentAhead cs then exponent? negative digits 0 cs
  else some (ofDigits negative digits, cs)

/-- Reads a number after its sign, with what follows it. A zero stands alone before the point. -/
def unsigned? (negative : Bool) (cs : List Char) : Option (Number × List Char) :=
  match cs with
  | '0' :: rest => if digitAhead rest then none else finish? negative 0 rest
  | _ =>
    if digitAhead cs then
      let (digits, _, rest) := absorb 0 cs
      if digitAhead rest then
        let (dropped, rest) := spanDigits rest
        if rest.head? = some '.' then fraction? negative digits dropped.length (rest.drop 1)
        else exponent? negative digits dropped.length rest
      else finish? negative digits rest
    else none

/-- Reads a number with what follows it. -/
def number? : List Char → Option (Number × List Char)
  | '-' :: rest => unsigned? true rest
  | cs => unsigned? false cs

end SeededArt.Json
