import SeededArt.Decimal.Binary
/-!
# The shortest decimal that reads back

A binary magnitude is the nearest one to every real of an interval around it; the ends belong to
the interval exactly if the mantissa is even. `shortest` answers the decimal with the fewest
digits in that interval, of several the one nearest to the magnitude; of two equally near a `Tie`
decides.
-/

namespace SeededArt.Decimal

/-- A positive decimal `digits * 10 ^ power`. -/
structure Scaled where
  digits : Nat
  power : Int
deriving DecidableEq, Repr

/-- The reals that round to a magnitude, each end and the magnitude itself in units of
`2 ^ unit`. -/
structure Neighbourhood where
  low : Nat
  value : Nat
  high : Nat
  unit : Int
  /-- Whether the ends round to the magnitude too. -/
  closed : Bool

/-- The neighbourhood of a positive magnitude: half a gap to each side, and the gap below a power
of two is half as wide unless the exponent is the least. -/
def Neighbourhood.of (f : Format) (mantissa : Nat) (exponent : Int) : Neighbourhood :=
  let below := if mantissa = f.band ∧ f.least < exponent then 1 else 2
  ⟨4 * mantissa - below, 4 * mantissa, 4 * mantissa + 2, exponent - 2, mantissa % 2 = 0⟩

/-- The neighbourhood measured on the grid of multiples of `10 ^ power`: `n` grid steps compare
with a point of the neighbourhood as `n * step` compares with the point times `scale`. -/
structure Grid where
  step : Nat
  scale : Nat

/-- The grid of multiples of `10 ^ power`, measured in units of `2 ^ unit`. -/
def Grid.at (power unit : Int) : Grid :=
  ⟨raise 10 power * raise 2 (-unit), raise 10 (-power) * raise 2 unit⟩

/-- Which of two neighbours on a grid is chosen if both are equally near. -/
inductive Tie where
  /-- The greater one. -/
  | up
  /-- The one with an even last digit. -/
  | even
deriving DecidableEq, Repr

/-- Whether a tie between `under` and its successor goes to the successor. -/
def Tie.goesUp : Tie → (under : Nat) → Bool
  | up, _ => true
  | even, under => under % 2 = 1

/-- Whether `n` grid steps lie in the neighbourhood. -/
def Neighbourhood.holds (b : Neighbourhood) (g : Grid) (n : Nat) : Bool :=
  let point := n * g.step
  if b.closed then b.low * g.scale ≤ point && point ≤ b.high * g.scale
  else b.low * g.scale < point && point < b.high * g.scale

/-- The grid point of the neighbourhood nearest to the magnitude. Only the two neighbours of the
magnitude on the grid need to be tried. -/
def Neighbourhood.pick? (b : Neighbourhood) (t : Tie) (g : Grid) : Option Nat :=
  let under := b.value * g.scale / g.step
  let above := under + 1
  match b.holds g under, b.holds g above with
  | true, true =>
    let toUnder := b.value * g.scale - under * g.step
    let toAbove := above * g.step - b.value * g.scale
    if toUnder < toAbove ∨ (toUnder = toAbove ∧ ¬ t.goesUp under) then some under
    else some above
  | true, false => some under
  | false, true => some above
  | false, false => none

/-- Moves trailing zeros of the digits into the power; `fuel` bounds their number. -/
def Scaled.stripZeros : Nat → Scaled → Scaled
  | 0, s => s
  | fuel + 1, s => if s.digits % 10 = 0 then stripZeros fuel ⟨s.digits / 10, s.power + 1⟩ else s

/-- Tries ever finer grids, from `power` downwards. -/
def Neighbourhood.search (b : Neighbourhood) (t : Tie) : Nat → Int → Scaled
  | 0, power => ⟨b.value, power⟩
  | fuel + 1, power =>
    match b.pick? t (.at power b.unit) with
    | some n => Scaled.stripZeros 20 ⟨n, power⟩
    | none => search b t fuel (power - 1)

/-- A power of ten above a positive magnitude, by at most a factor of a hundred. -/
def decimalCeiling (mantissa : Nat) (exponent : Int) : Int :=
  ((mantissa.log2 : Int) + exponent) * 30103 / 100000 + 1

/-- The shortest decimal that reads back as a positive magnitude of the format. -/
def shortest (f : Format) (t : Tie) (mantissa : Nat) (exponent : Int) : Scaled :=
  (Neighbourhood.of f mantissa exponent).search t 25 (decimalCeiling mantissa exponent)

end SeededArt.Decimal
