/-!
# Binary floating-point formats

A finite magnitude of a format is `mantissa * 2 ^ exponent`, with fewer than `precision` bits of
mantissa and an exponent that is never below `least`. `Format.nearest` rounds a positive quotient
of natural numbers once, to the nearest magnitude, a tie going to the even mantissa, and answers
the bits of the result without the sign. `Magnitude.ofBits` reads such bits back.
-/

namespace SeededArt.Decimal

/-- The power `base ^ power`, or one if the power is negative. So for every power `base ^ power` is
the quotient of `raise base power` and `raise base (-power)`. -/
def raise (base : Nat) (power : Int) : Nat := Nat.pow base power.toNat

/-- A binary interchange format without its sign bit. -/
structure Format where
  /-- Bits of a full mantissa. -/
  precision : Nat
  /-- Exponent of the last mantissa bit of the smallest magnitudes. -/
  least : Int
  /-- The biased exponent that stands for infinity and for not-a-number. -/
  special : Nat

namespace Format

/-- The format of `Float`. -/
def binary64 : Format := ⟨53, -1074, 2047⟩

/-- The format of `Float32`. -/
def binary32 : Format := ⟨24, -149, 255⟩

/-- The number of mantissas that share one biased exponent. -/
def band (f : Format) : Nat := raise 2 (f.precision - 1)

def infinityBits (f : Format) : Nat := f.special * f.band

/-- The bits of a quiet not-a-number. -/
def nanBits (f : Format) : Nat := f.infinityBits + f.band / 2

def signBit (f : Format) : Nat := (f.special + 1) * f.band

end Format

/-- A quotient rounded to the nearest natural number, a tie to the even one. -/
def roundQuotient (num den : Nat) : Nat :=
  let quotient := num / den
  let rest := num % den
  if 2 * rest < den then quotient
  else if den < 2 * rest then quotient + 1
  else quotient + quotient % 2

/-- The exponent at which a positive quotient has a full mantissa, or the least exponent if that
is greater. -/
def Format.exponentFor (f : Format) (num den : Nat) : Int :=
  let guess : Int := num.log2 - den.log2 - f.precision
  let full := num * raise 2 (-guess) < raise 2 f.precision * (den * raise 2 guess)
  max f.least (if full then guess else guess + 1)

/-- The bits of the magnitude nearest to `num / den`. A mantissa that rounds up to the next power
of two carries into the exponent by the addition itself. -/
def Format.nearest (f : Format) (num den : Nat) : Nat :=
  if num = 0 ∨ den = 0 then 0
  else
    let exponent := f.exponentFor num den
    let mantissa := roundQuotient (num * raise 2 (-exponent)) (den * raise 2 exponent)
    min (mantissa + (exponent - f.least).toNat * f.band) f.infinityBits

/-- What the bits of a format stand for, the sign left out. -/
inductive Magnitude where
  | finite (mantissa : Nat) (exponent : Int)
  | infinite
  | notANumber
deriving DecidableEq, Repr

/-- The magnitude of bits without a sign. -/
def Magnitude.ofBits (f : Format) (bits : Nat) : Magnitude :=
  let biased := bits / f.band
  let fraction := bits % f.band
  if biased = 0 then .finite fraction f.least
  else if biased < f.special then .finite (fraction + f.band) (f.least + (biased - 1 : Nat))
  else if fraction = 0 then .infinite
  else .notANumber

/-- A sign and a magnitude. -/
structure Signed where
  negative : Bool
  magnitude : Magnitude
deriving DecidableEq, Repr

/-- Bits with a sign. -/
def Signed.ofBits (f : Format) (bits : Nat) : Signed :=
  ⟨f.signBit ≤ bits, .ofBits f (bits % f.signBit)⟩

/-- The value of a double. -/
def Signed.ofFloat (x : Float) : Signed := .ofBits .binary64 x.toBits.toNat

/-- The value of a single. -/
def Signed.ofFloat32 (x : Float32) : Signed := .ofBits .binary32 x.toBits.toNat

/-- The bits nearest to a signed magnitude. -/
def Format.ofSigned (f : Format) (x : Signed) : Nat :=
  (if x.negative then f.signBit else 0) +
    match x.magnitude with
    | .finite mantissa exponent => f.nearest (mantissa * raise 2 exponent) (raise 2 (-exponent))
    | .infinite => f.infinityBits
    | .notANumber => f.nanBits

/-- A double rounded once to a single. -/
def singleOfDouble (x : Float) : Float32 :=
  .ofBits (Format.binary32.ofSigned (.ofFloat x)).toUInt32

/-- A natural number rounded once to a single. -/
def singleOfNat (n : Nat) : Float32 := .ofBits (Format.binary32.nearest n 1).toUInt32

/-- A quotient of natural numbers rounded once to a double. -/
def doubleOfQuotient (num den : Nat) : Float := .ofBits (Format.binary64.nearest num den).toUInt64

/-- A natural number rounded once to a double. -/
def doubleOfNat (n : Nat) : Float := doubleOfQuotient n 1

end SeededArt.Decimal
