import SeededArt.Decimal.Numeral
/-!
# The numbers of the evaluator

`Scalar ν` is what evaluation asks of a number. Singles implement it with one rounding for each
operation; statements about images hold for every implementation.
-/

namespace SeededArt.Render

open Decimal

/-- What evaluation asks of a number. -/
class Scalar (ν : Type) extends Add ν, Sub ν, Mul ν, Div ν where
  /-- The value of a numeral. -/
  ofNumeral : Numeral → ν
  /-- The value of a natural number. -/
  ofNat : Nat → ν
  /-- One half, the distance of a pixel's centre from its edges. -/
  half : ν
  /-- Half a turn. -/
  pi : ν
  magnitude : ν → ν
  squareRoot : ν → ν
  sine : ν → ν
  cosine : ν → ν
  tangent : ν → ν
  /-- The distance of a point from the origin. -/
  hypotenuse : ν → ν → ν
  /-- The number itself, but at most one. -/
  atMostOne : ν → ν
  /-- The level of a channel: from 0 at zero and below to 255 at one and above. -/
  level : ν → UInt8

/-- The hypotenuse of singles, computed in doubles, where the squares are exact. -/
def hypotenuse32 (x y : Float32) : Float32 :=
  if x.isInf || y.isInf then (1.0 : Float32) / 0.0
  else Decimal.singleOfDouble (x.toFloat * x.toFloat + y.toFloat * y.toFloat).sqrt

/-- A sum that is no number counts as one. -/
def atMostOne32 (x : Float32) : Float32 := if x < 1.0 then x else 1.0

/-- The level of a channel. What is no number counts as zero. Adding `2 ^ 23` leaves no bits for a
fraction, so it rounds to a whole number, a tie to the even one. -/
def level32 (x : Float32) : UInt8 :=
  let clamped : Float32 := if x > 0.0 then (if x < 1.0 then x else 1.0) else 0.0
  (clamped * 255.0 + 8388608.0 - 8388608.0).toUInt8

/-- Singles. Every operation rounds once, and half a turn is the single nearest to pi. -/
instance : Scalar Float32 where
  ofNumeral := Numeral.toFloat32
  ofNat := Decimal.singleOfNat
  half := 0.5
  pi := 3.14159265
  magnitude := Float32.abs
  squareRoot := Float32.sqrt
  sine := Float32.sin
  cosine := Float32.cos
  tangent := Float32.tan
  hypotenuse := hypotenuse32
  atMostOne := atMostOne32
  level := level32

end SeededArt.Render
