import SeededArt.Decimal.Shortest
/-!
# How a binary number is written in decimal

The digits are always the shortest that read back. A `Layout` says where an exponent is written
and how, and whether a whole number keeps a point. `Layout.literal` is the form of a constant inside
an expression, which must never read as an integer; `Layout.plain` is the form inside messages.
-/

namespace SeededArt.Decimal

/-- The decisions of a decimal notation. -/
structure Layout where
  /-- The powers of ten of the leading digit, from the first to before the second, that are
  written without an exponent; `none` if all are. -/
  positional : Option (Int × Int)
  /-- Whether a whole number written without an exponent ends in `.0`. -/
  wholePoint : Bool
  /-- Whether an exponent that is not negative has a plus sign. -/
  exponentPlus : Bool := false
  /-- Which of two equally near decimals is written. -/
  tie : Tie := .up

namespace Layout

/-- Constants: an exponent below `1e-4` and from `1e16`, and always a point or an exponent. -/
def literal : Layout := { positional := some (-4, 16), wholePoint := true }

/-- Numbers in messages: never an exponent, and no point without need. -/
def plain : Layout := { positional := none, wholePoint := false }

/-- Numbers that a type description quotes: never an exponent, but always a point. -/
def quoted : Layout := { positional := none, wholePoint := true }

/-- Digits without an exponent: the point stands after `places` digits. -/
def positionalText (l : Layout) (digits : List Char) (places : Int) : List Char :=
  if places ≤ 0 then '0' :: '.' :: (List.replicate (-places).toNat '0' ++ digits)
  else if digits.length ≤ places.toNat then
    digits ++ List.replicate (places.toNat - digits.length) '0' ++
      if l.wholePoint then ['.', '0'] else []
  else digits.take places.toNat ++ '.' :: digits.drop places.toNat

/-- Digits with the exponent of the first digit, the point after that digit. -/
def scientificText (l : Layout) (digits : List Char) (leading : Int) : List Char :=
  let mantissa :=
    match digits with
    | first :: second :: rest => first :: '.' :: second :: rest
    | _ => digits
  let sign := if l.exponentPlus && 0 ≤ leading then ['+'] else []
  mantissa ++ 'e' :: (sign ++ (toString leading).toList)

def scaledText (l : Layout) (s : Scaled) : List Char :=
  let digits := Nat.toDigits 10 s.digits
  let leading : Int := s.power + digits.length - 1
  let isPositional :=
    match l.positional with
    | none => true
    | some (first, last) => first ≤ leading && leading < last
  if isPositional then l.positionalText digits (leading + 1) else l.scientificText digits leading

/-- A number of a binary format. Not-a-number has no sign. -/
def signedText (l : Layout) (f : Format) (x : Signed) : String :=
  let sign := if x.negative then "-" else ""
  match x.magnitude with
  | .notANumber => "NaN"
  | .infinite => sign ++ "inf"
  | .finite 0 _ => sign ++ if l.wholePoint then "0.0" else "0"
  | .finite mantissa exponent =>
    sign ++ String.ofList (l.scaledText (shortest f l.tie mantissa exponent))

/-- The text of a double. -/
def float (l : Layout) (x : Float) : String := l.signedText .binary64 (.ofFloat x)

/-- The text of a single. -/
def float32 (l : Layout) (x : Float32) : String := l.signedText .binary32 (.ofFloat32 x)

end Layout

end SeededArt.Decimal
