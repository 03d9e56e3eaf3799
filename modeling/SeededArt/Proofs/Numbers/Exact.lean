import SeededArt.Proofs.Numbers.Rounding
/-!
# Exact arithmetic

An `ExactArithmetic` is a rounded arithmetic that never rounds: every number is finite, and every
rational is the value of a number. The rationals themselves are one; as a constant of an expression
a rational is written like the double nearest to it.
-/

namespace SeededArt

open Arithmetic SeededArt.Valuation RoundedArithmetic

/-- Every number is finite, every rational is a value, and no result is rounded. -/
class ExactArithmetic (α : Type) [Arithmetic α] extends RoundedArithmetic α where
  finite : ∀ x : α, isFinite x = true
  round_exact : ∀ q, round q = q
  exists_value : ∀ q, ∃ x : α, value x = q

section Exact

variable {α : Type} [Arithmetic α] [ExactArithmetic α]

open ExactArithmetic

@[simp] theorem value_add (x y : α) : value (x + y) = value x + value y := by
  rw [(add_rounds x y (finite x) (finite y)).value_eq (finite _), round_exact]

@[simp] theorem value_mul (x y : α) : value (x * y) = value x * value y := by
  rw [(mul_rounds x y (finite x) (finite y)).value_eq (finite _), round_exact]

theorem less_iff_value {x y : α} : less x y = true ↔ value x < value y :=
  less_iff x y (finite x) (finite y)

end Exact

/-- The double nearest to a rational. -/
def nearestDouble (q : ℚ) : Decimal.Signed :=
  ⟨q < 0, .ofBits .binary64 (Decimal.Format.binary64.nearest q.num.natAbs q.den)⟩

instance : Arithmetic ℚ where
  less x y := x < y
  magnitude x := |x|
  isFinite _ := true
  emptySum := 0
  fraction k := k.toNat / 2 ^ 32
  plain q := Decimal.Layout.plain.signedText .binary64 (nearestDouble q)
  literal q := Decimal.Layout.literal.signedText .binary64 (nearestDouble q)

instance : ExactArithmetic ℚ where
  value q := q
  IsInfinite _ := False
  round q := q
  round_mono := monotone_id
  round_value _ _ := rfl
  round_representable _ _ := rfl
  add_rounds _ _ _ _ := .inl ⟨rfl, rfl⟩
  sub_rounds _ _ _ _ := .inl ⟨rfl, rfl⟩
  mul_rounds _ _ _ _ := .inl ⟨rfl, rfl⟩
  not_finite_of_infinite _ h := h.elim
  add_infinite _ _ h _ := h.elim
  sub_infinite _ _ h _ := h.elim
  less_iff x y _ _ := by simp [less]
  less_magnitude_of_infinite _ _ h _ := h.elim
  magnitude_finite _ _ := ⟨rfl, rfl⟩
  emptySum_finite := ⟨rfl, rfl⟩
  zero_finite := ⟨rfl, by norm_num⟩
  half_finite := ⟨rfl, by norm_num⟩
  one_finite := ⟨rfl, by norm_num⟩
  tolerance_finite := ⟨rfl, by norm_num⟩
  fraction_finite _ := ⟨rfl, rfl⟩
  finite _ := rfl
  round_exact _ := rfl
  exists_value q := ⟨q, rfl⟩

end SeededArt
