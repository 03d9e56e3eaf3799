import SeededArt.Decimal.Binary
/-!
# Decimal numerals

A numeral is what a text of digits says before it is rounded to any format: a sign, the digits as
one natural number and a power of ten, or one of the words for infinity and not-a-number.
`Numeral.read?` accepts an optional sign, then digits with at most one point among or beside them
and an optional exponent, or a word. `Numeral.toFloat` and `Numeral.toFloat32` round once.
-/

namespace SeededArt.Decimal

/-- A number as a text writes it. -/
inductive Numeral where
  | finite (negative : Bool) (digits : Nat) (power : Int)
  | infinite (negative : Bool)
  | notANumber (negative : Bool)
deriving DecidableEq, Repr

/-- The value of a run of decimal digits. -/
def digitsValue (cs : List Char) : Nat :=
  cs.foldl (fun n c => 10 * n + (c.toNat - '0'.toNat)) 0

@[simp] theorem digitsValue_nil : digitsValue [] = 0 := rfl

/-- Splits off the leading decimal digits. -/
def spanDigits (cs : List Char) : List Char × List Char := cs.span Char.isDigit

/-- Splits off a sign, if there is one; `true` stands for minus. -/
def splitSign : List Char → Bool × List Char
  | '-' :: rest => (true, rest)
  | '+' :: rest => (false, rest)
  | cs => (false, cs)

namespace Numeral

/-- Reads an exponent: nothing, or `e` or `E`, a sign and at least one digit, up to the end. -/
def readExponent? : List Char → Option Int
  | [] => some 0
  | c :: rest =>
    if c = 'e' ∨ c = 'E' then
      let (negative, digits) := splitSign rest
      if digits ≠ [] ∧ digits.all Char.isDigit then
        some (if negative then -(digitsValue digits : Int) else digitsValue digits)
      else none
    else none

/-- Reads digits with an optional point and exponent, after the sign. -/
def readDigits? (negative : Bool) (cs : List Char) : Option Numeral :=
  let (whole, rest) := spanDigits cs
  let (fraction, rest) : List Char × List Char :=
    match rest with
    | '.' :: rest => spanDigits rest
    | _ => ([], rest)
  if whole = [] ∧ fraction = [] then none
  else
    (readExponent? rest).map fun power =>
      .finite negative (digitsValue (whole ++ fraction)) (power - fraction.length)

/-- Reads a number: a sign, then digits or one of the words `inf`, `infinity` and `nan`, in which
case does not count. -/
def readChars? (cs : List Char) : Option Numeral :=
  let (negative, body) := splitSign cs
  let word := String.ofList (body.map Char.toLower)
  if word = "inf" ∨ word = "infinity" then some (.infinite negative)
  else if word = "nan" then some (.notANumber negative)
  else readDigits? negative body

def read? (text : String) : Option Numeral := readChars? text.toList

/-- The number of decimal digits of a positive number, one more than enough at most. -/
def digitCount (n : Nat) : Nat := n.log2 * 30103 / 100000 + 1

/-- The bits of the format's value nearest to `digits * 10 ^ power`. Far outside every format's
range the power is not computed. -/
def nearest (f : Format) (digits : Nat) (power : Int) : Nat :=
  if digits = 0 ∨ power + digitCount digits < -400 then 0
  else if 400 < power + digitCount digits then f.infinityBits
  else f.nearest (digits * raise 10 power) (raise 10 (-power))

/-- The bits of the format's value nearest to a numeral. -/
def toBits (f : Format) : Numeral → Nat
  | .finite negative digits power => sign negative + nearest f digits power
  | .infinite negative => sign negative + f.infinityBits
  | .notANumber negative => sign negative + f.nanBits
where
  sign (negative : Bool) : Nat := if negative then f.signBit else 0

/-- The nearest double. -/
def toFloat (n : Numeral) : Float := .ofBits (n.toBits .binary64).toUInt64

/-- The nearest single. -/
def toFloat32 (n : Numeral) : Float32 := .ofBits (n.toBits .binary32).toUInt32

end Numeral

end SeededArt.Decimal
