import SeededArt.Arithmetic
import Mathlib.Algebra.Order.Field.Rat
import Mathlib.Algebra.Order.Floor.Ring
import Mathlib.Data.Rat.Floor
import Mathlib.Tactic.FieldSimp
import Mathlib.Tactic.Linarith
import Mathlib.Tactic.NormNum
import Mathlib.Tactic.Positivity
/-!
# Rounded arithmetic

A `RoundedArithmetic` is an arithmetic whose finite numbers stand for rationals and whose sums,
differences and products are the exact results followed by one rounding: a monotone function that
leaves alone every number it can produce, among them all with a mantissa of 53 bits. A result that
is rounded beyond every finite number is infinite, and a sum stays infinite.

Sums from the left are all that sampling needs of it: a finite sum has finite partial sums
(`finite_of_finite_sum`), weights never lower it (`le_sum`), and it depends on the value of its
start alone (`sum_congr`).
-/

namespace SeededArt

/-- A number with a mantissa of 53 bits and an exponent of at least `-1074`. -/
def Representable (q : ℚ) : Prop :=
  ∃ m e : ℤ, |m| ≤ 2 ^ 53 ∧ -1074 ≤ e ∧ q = m * 2 ^ e

/-- What finite numbers stand for, which numbers are infinite, and how exact results are rounded. -/
class Valuation (α : Type) [Arithmetic α] where
  /-- The value of a finite number; of other numbers it means nothing. -/
  value : α → ℚ
  IsInfinite : α → Prop
  round : ℚ → ℚ

open Arithmetic SeededArt.Valuation

/-- A number is an exact result after rounding: its value is the rounded result, or it is infinite
because the rounded result is beyond every finite number. -/
def Rounds {α : Type} [Arithmetic α] [Valuation α] (exact : ℚ) (x : α) : Prop :=
  (isFinite x = true ∧ value x = round α exact) ∨
    (IsInfinite x ∧ ∀ y : α, isFinite y = true → |value y| < |round α exact|)

/-- Sums, differences and products are exact results rounded by a monotone function that leaves
every value alone and every number with a mantissa of 53 bits. -/
class RoundedArithmetic (α : Type) [Arithmetic α] extends Valuation α where
  round_mono : Monotone round
  round_value : ∀ x : α, isFinite x = true → round (value x) = value x
  round_representable : ∀ q, Representable q → round q = q
  add_rounds : ∀ x y : α, isFinite x = true → isFinite y = true →
    Rounds (value x + value y) (x + y)
  sub_rounds : ∀ x y : α, isFinite x = true → isFinite y = true →
    Rounds (value x - value y) (x - y)
  mul_rounds : ∀ x y : α, isFinite x = true → isFinite y = true →
    Rounds (value x * value y) (x * y)
  not_finite_of_infinite : ∀ x : α, IsInfinite x → isFinite x = false
  add_infinite : ∀ x y : α, IsInfinite x → isFinite y = true → IsInfinite (x + y)
  sub_infinite : ∀ x y : α, IsInfinite x → isFinite y = true → IsInfinite (x - y)
  less_iff : ∀ x y : α, isFinite x = true → isFinite y = true →
    (less x y = true ↔ value x < value y)
  /-- The magnitude of an infinite number is greater than every finite number. -/
  less_magnitude_of_infinite : ∀ x y : α, IsInfinite y → isFinite x = true →
    less x (magnitude y) = true
  magnitude_finite : ∀ x : α, isFinite x = true →
    isFinite (magnitude x) = true ∧ value (magnitude x) = |value x|
  emptySum_finite : isFinite (emptySum : α) = true ∧ value (emptySum : α) = 0
  zero_finite : isFinite (0.0 : α) = true ∧ value (0.0 : α) = 0
  half_finite : isFinite (0.5 : α) = true ∧ value (0.5 : α) = 1 / 2
  one_finite : isFinite (1.0 : α) = true ∧ value (1.0 : α) = 1
  /-- The decimal constant of the tolerance is rounded like any result. -/
  tolerance_finite : isFinite (1e-9 : α) = true ∧ value (1e-9 : α) = round (1 / 10 ^ 9)
  fraction_finite : ∀ k : UInt32,
    isFinite (fraction k : α) = true ∧ value (fraction k : α) = k.toNat / 2 ^ 32

open RoundedArithmetic

/-! ## Representable numbers -/

theorem representable_intCast_mul {m e : ℤ} (hm : |m| ≤ 2 ^ 53) (he : -1074 ≤ e) :
    Representable (m * 2 ^ e) := ⟨m, e, hm, he, rfl⟩

theorem representable_one : Representable 1 := ⟨1, 0, by norm_num, by norm_num, by norm_num⟩

theorem representable_zpow {e : ℤ} (he : -1074 ≤ e) : Representable (2 ^ e) := by
  simpa using representable_intCast_mul (m := 1) (by norm_num) he

theorem Representable.neg {q : ℚ} (h : Representable q) : Representable (-q) := by
  obtain ⟨m, e, hm, he, rfl⟩ := h
  exact ⟨-m, e, by rwa [abs_neg], he, by push_cast; ring⟩

/-- Up to two, representable numbers are at most `2 ^ -52` apart. -/
theorem exists_representable_between {x y : ℚ} (hx : 0 ≤ x) (hy : y ≤ 2)
    (h : x + 1 / 2 ^ 52 ≤ y) : ∃ r, Representable r ∧ x ≤ r ∧ r < y := by
  refine ⟨⌈x * 2 ^ 52⌉ * 2 ^ (-52 : ℤ), representable_intCast_mul ?_ (by norm_num), ?_, ?_⟩
  · have low : 0 ≤ ⌈x * 2 ^ 52⌉ := Int.ceil_nonneg (by positivity)
    rw [abs_of_nonneg low, Int.ceil_le]
    push_cast
    linarith
  · have := Int.le_ceil (x * 2 ^ 52)
    norm_num at this ⊢
    linarith
  · have := Int.ceil_lt_add_one (x * 2 ^ 52)
    norm_num at this h ⊢
    linarith

/-! ## Rounded results -/

section Rounded

variable {α : Type} [Arithmetic α] [RoundedArithmetic α] {x y : α} {q : ℚ}

theorem Rounds.value_eq (h : Rounds q x) (hx : isFinite x = true) : value x = round α q := by
  rcases h with ⟨_, hv⟩ | ⟨hi, _⟩
  · exact hv
  · rw [not_finite_of_infinite x hi] at hx
    exact absurd hx Bool.false_ne_true

theorem Rounds.finite_or_infinite (h : Rounds q x) : isFinite x = true ∨ IsInfinite x :=
  h.imp And.left And.left

/-- A result is finite if rounding takes it no further out than some finite number is. -/
theorem Rounds.finite_of_abs_le (h : Rounds q x) (hy : isFinite y = true)
    (hle : |round α q| ≤ |value y|) : isFinite x = true := by
  rcases h with ⟨hx, _⟩ | ⟨_, hfar⟩
  · exact hx
  · exact absurd (hfar y hy) (not_lt.2 hle)

theorem Rounds.congr (hx : Rounds q x) (hy : Rounds q y) (h : isFinite x = true) :
    isFinite y = true ∧ value y = value x := by
  have hv := hx.value_eq h
  have hf : isFinite y = true := hy.finite_of_abs_le h (by rw [hv])
  exact ⟨hf, (hy.value_eq hf).trans hv.symm⟩

theorem round_zero : round α 0 = 0 :=
  round_representable 0 ⟨0, 0, by norm_num, by norm_num, by norm_num⟩

theorem round_nonneg (h : 0 ≤ q) : 0 ≤ round α q := by
  have := round_mono (α := α) h
  rwa [round_zero] at this

theorem less_eq_false_iff (hx : isFinite x = true) (hy : isFinite y = true) :
    less x y = false ↔ value y ≤ value x := by
  rw [← not_lt, ← less_iff x y hx hy, Bool.not_eq_true]

theorem zero_less_iff (hx : isFinite x = true) : less 0.0 x = true ↔ 0 < value x := by
  rw [less_iff _ _ zero_finite.1 hx, zero_finite.2]

theorem less_zero_eq_false_iff (hx : isFinite x = true) : less x 0.0 = false ↔ 0 ≤ value x := by
  rw [less_eq_false_iff hx zero_finite.1, zero_finite.2]

/-! ## Weights and their sums -/

/-- A finite number that is not negative. -/
def IsWeight (w : α) : Prop := isFinite w = true ∧ 0 ≤ value w

theorem IsWeight.zero_less_eq_false_iff {w : α} (hw : IsWeight w) :
    less 0.0 w = false ↔ value w = 0 := by
  rw [less_eq_false_iff zero_finite.1 hw.1, zero_finite.2]
  exact ⟨fun h => le_antisymm h hw.2, fun h => le_of_eq h⟩

/-- Sums never leave infinity. -/
theorem infinite_sum {ws : List α} (hw : ∀ w ∈ ws, IsWeight w) (hx : IsInfinite x) :
    IsInfinite (ws.foldl (· + ·) x) := by
  induction ws generalizing x with
  | nil => exact hx
  | cons w ws ih =>
    exact ih (fun v hv => hw v (List.mem_cons_of_mem _ hv))
      (add_infinite x w hx (hw w List.mem_cons_self).1)

theorem infinite_of_not_finite {ws : List α} (hw : ∀ w ∈ ws, IsWeight w) (hx : isFinite x = true)
    (hs : isFinite (ws.foldl (· + ·) x) = false) : IsInfinite (ws.foldl (· + ·) x) := by
  induction ws generalizing x with
  | nil =>
    rw [List.foldl_nil, hx] at hs
    exact absurd hs.symm Bool.false_ne_true
  | cons w ws ih =>
    have hws : ∀ v ∈ ws, IsWeight v := by
      intro v hv
      exact hw v (List.mem_cons_of_mem _ hv)
    rw [List.foldl_cons] at hs ⊢
    rcases (add_rounds x w hx (hw w List.mem_cons_self).1).finite_or_infinite with h | h
    · exact ih hws h hs
    · exact infinite_sum hws h

theorem finite_of_finite_sum {w : α} {ws : List α} (hw : ∀ v ∈ w :: ws, IsWeight v)
    (hx : isFinite x = true) (hs : isFinite ((w :: ws).foldl (· + ·) x) = true) :
    isFinite (x + w) = true := by
  rcases (add_rounds x w hx (hw w List.mem_cons_self).1).finite_or_infinite with h | h
  · exact h
  · have hi := infinite_sum (fun v hv => hw v (List.mem_cons_of_mem _ hv)) h
    rw [List.foldl_cons, not_finite_of_infinite _ hi] at hs
    exact absurd hs Bool.false_ne_true

theorem le_value_add {w : α} (hw : IsWeight w) (hx : isFinite x = true)
    (hs : isFinite (x + w) = true) : value x ≤ value (x + w) := by
  calc value x = round α (value x) := (round_value x hx).symm
    _ ≤ round α (value x + value w) := round_mono (by linarith [hw.2])
    _ = value (x + w) := ((add_rounds x w hx hw.1).value_eq hs).symm

theorem le_sum {ws : List α} (hw : ∀ w ∈ ws, IsWeight w) (hx : isFinite x = true)
    (hs : isFinite (ws.foldl (· + ·) x) = true) : value x ≤ value (ws.foldl (· + ·) x) := by
  induction ws generalizing x with
  | nil => exact le_refl _
  | cons w ws ih =>
    have hxw := finite_of_finite_sum hw hx hs
    calc value x ≤ value (x + w) := le_value_add (hw w List.mem_cons_self) hx hxw
      _ ≤ value (ws.foldl (· + ·) (x + w)) :=
        ih (fun v hv => hw v (List.mem_cons_of_mem _ hv)) hxw hs

theorem sum_congr {ws : List α} (hw : ∀ w ∈ ws, IsWeight w) (hx : isFinite x = true)
    (hy : isFinite y = true) (hxy : value x = value y)
    (hs : isFinite (ws.foldl (· + ·) x) = true) :
    isFinite (ws.foldl (· + ·) y) = true ∧
      value (ws.foldl (· + ·) y) = value (ws.foldl (· + ·) x) := by
  induction ws generalizing x y with
  | nil => exact ⟨hy, hxy.symm⟩
  | cons w ws ih =>
    have hw' := (hw w List.mem_cons_self).1
    have hxw := finite_of_finite_sum hw hx hs
    have rx := add_rounds x w hx hw'
    have ry := add_rounds y w hy hw'
    rw [← hxy] at ry
    obtain ⟨hyw, hv⟩ := rx.congr ry hxw
    exact ih (fun v hv => hw v (List.mem_cons_of_mem _ hv)) hxw hyw hv.symm hs

end Rounded

end SeededArt
