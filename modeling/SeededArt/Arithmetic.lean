import SeededArt.Decimal.Layout
/-!
# The numbers of weights and draws

Weights of alternatives and draws of a generator are numbers of one type `α`. `Arithmetic α` is
all that sampling, grammars and synthesis ask of them, so that the same definitions run on doubles
and can be read over exact numbers too.
-/

namespace SeededArt

/-- What sampling asks of a number. Decimal constants of the library are read by `OfScientific`. -/
class Arithmetic (α : Type) extends Add α, Sub α, Mul α, OfScientific α where
  /-- Whether the first number is less than the second; never of a number that has no place in
  the order. -/
  less : α → α → Bool
  /-- The distance from zero. -/
  magnitude : α → α
  /-- Whether a number is neither infinite nor outside the order. -/
  isFinite : α → Bool
  /-- The sum of no numbers, to which adding a number gives that number. -/
  emptySum : α
  /-- The quotient of a word and `2 ^ 32`. -/
  fraction : UInt32 → α
  /-- The text of a number in a message. -/
  plain : α → String
  /-- The text of a number as a constant of an expression. -/
  literal : α → String

namespace Arithmetic

/-- The sum of a list, from the left. -/
def total {α : Type} [Arithmetic α] (numbers : List α) : α := numbers.foldl (· + ·) emptySum

end Arithmetic

/-- Doubles. The empty sum is the negative zero, which no addition of another number keeps. -/
instance : Arithmetic Float where
  less x y := x < y
  magnitude := Float.abs
  isFinite := Float.isFinite
  emptySum := -0.0
  fraction k := Decimal.doubleOfQuotient k.toNat (Decimal.raise 2 32)
  plain := Decimal.Layout.plain.float
  literal := Decimal.Layout.literal.float

end SeededArt
