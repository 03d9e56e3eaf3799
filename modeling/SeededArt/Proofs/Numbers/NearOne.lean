import SeededArt.Proofs.Sampling.Rounded
/-!
# Doubles near one

From one half on every double is a multiple of `2 ^ -53` (`exists_grid`), so up to two a double
differs from one by a double, and the difference is computed without rounding. On this grid the
double of the tolerance `1e-9`, which lies above it, lets no more numbers pass than the tolerance
itself. So a total of weights is near one exactly if it is at most `1e-9` away
(`isNearOne_total_iff`).
-/

namespace SeededArt

open Arithmetic SeededArt.Valuation RoundedArithmetic

section Grid

variable {x : Float}

/-- From one half on doubles are multiples of `2 ^ -53`. -/
theorem exists_grid (hx : isFinite x = true) (hhalf : 1 / 2 ≤ value x) :
    ∃ k : ℤ, value x = k * 2 ^ (-53 : ℤ) := by
  have hrounded := isRounded_of_finite hx
  have hvalue : value x = unpackedValue x.toModel.unpack := rfl
  rw [hvalue] at hhalf ⊢
  generalize x.toModel.unpack = u at hrounded hhalf
  cases hrounded with
  | zero s =>
    rw [unpackedValue_zero] at hhalf
    norm_num at hhalf
  | @finite s m e hm hc =>
    rw [unpackedValue_finite] at hhalf ⊢
    have hpos := magnitude_pos hm e
    cases s with
    | negative =>
      rw [show signed .negative (m * 2 ^ e : ℚ) = -(m * 2 ^ e) from rfl] at hhalf
      linarith
    | positive =>
      rw [show signed .positive (m * 2 ^ e : ℚ) = m * 2 ^ e from rfl] at hhalf ⊢
      -- a mantissa below `2 ^ 53` needs this exponent
      have he : -53 ≤ e := by
        have hmantissa : (m : ℚ) < 2 ^ (53 : ℤ) := by exact_mod_cast hc.lt
        have hlt : (2 : ℚ) ^ (-1 : ℤ) < 2 ^ (53 + e) := by
          calc (2 : ℚ) ^ (-1 : ℤ) ≤ m * 2 ^ e := by norm_num at hhalf ⊢; exact hhalf
            _ < 2 ^ (53 : ℤ) * 2 ^ e := mul_lt_mul_of_pos_right hmantissa (two_zpow_pos e)
            _ = 2 ^ (53 + e) := (zpow_add₀ two_ne_zero _ _).symm
        have := (zpow_lt_zpow_iff_right₀ one_lt_two).1 hlt
        omega
      refine ⟨m * 2 ^ (e + 53).toNat, ?_⟩
      have hsplit : (2 : ℚ) ^ e = 2 ^ (e + 53).toNat * 2 ^ (-53 : ℤ) := by
        rw [← zpow_natCast, Int.toNat_of_nonneg (by omega), ← zpow_add₀ two_ne_zero]
        congr 1
        ring
      rw [hsplit]
      push_cast
      ring

/-- Up to two, the difference of a double from one is not rounded. -/
theorem exists_sub_one (hx : isFinite x = true) (hhalf : 1 / 2 ≤ value x) (htwo : value x ≤ 2) :
    ∃ k : ℤ, value x - 1 = k * 2 ^ (-53 : ℤ) ∧ Representable (value x - 1) := by
  obtain ⟨k, hk⟩ := exists_grid hx hhalf
  have hdiff : value x - 1 = (k - 2 ^ 53 : ℤ) * 2 ^ (-53 : ℤ) := by
    rw [hk]
    push_cast
    norm_num
    ring
  refine ⟨k - 2 ^ 53, hdiff, k - 2 ^ 53, -53, ?_, by norm_num, hdiff⟩
  rw [hk] at hhalf htwo
  have hlow : (2 : ℚ) ^ 52 ≤ k := by
    norm_num at hhalf ⊢
    linarith
  have hhigh : (k : ℚ) ≤ 2 ^ 54 := by
    norm_num at htwo ⊢
    linarith
  have hlow' : (2 : ℤ) ^ 52 ≤ k := by exact_mod_cast hlow
  have hhigh' : k ≤ (2 : ℤ) ^ 54 := by exact_mod_cast hhigh
  rw [abs_le]
  omega

/-- Multiples of `2 ^ -53` that are not above the double of the tolerance are not above the
tolerance. -/
theorem grid_le_tolerance (k : ℤ) :
    |(k * 2 ^ (-53 : ℤ) : ℚ)| ≤ value (weightTolerance : Float) ↔
      |(k * 2 ^ (-53 : ℤ) : ℚ)| ≤ 1 / 10 ^ 9 := by
  have htol : value (weightTolerance : Float) = 4835703278458517 * 2 ^ (-82 : ℤ) :=
    tolerance_finite.2.trans nearest_tolerance
  have habs : |(k * 2 ^ (-53 : ℤ) : ℚ)| = (|k| : ℤ) * 2 ^ (-53 : ℤ) := by
    rw [abs_mul, abs_of_pos (two_zpow_pos _), Int.cast_abs]
  rw [htol, habs]
  constructor
  · intro h
    have hk : |k| < 9007200 := by
      by_contra hfar
      have hfar' : (9007200 : ℚ) ≤ (|k| : ℤ) := by exact_mod_cast not_lt.1 hfar
      norm_num at h hfar'
      linarith
    have hk' : ((|k| : ℤ) : ℚ) ≤ 9007199 := by exact_mod_cast Int.lt_add_one_iff.1 hk
    norm_num at hk' ⊢
    linarith
  · intro h
    norm_num at h ⊢
    linarith

/-- A finite number from one half to two is near one exactly if it is at most `1e-9` away. -/
theorem isNearOne_iff (hx : isFinite x = true) (hhalf : 1 / 2 ≤ value x) (htwo : value x ≤ 2) :
    isNearOne x = true ↔ |value x - 1| ≤ 1 / 10 ^ 9 := by
  obtain ⟨hone, hvalue⟩ := one_finite (α := Float)
  obtain ⟨k, hk, hrepresentable⟩ := exists_sub_one hx hhalf htwo
  have hsub := sub_rounds x 1.0 hx hone
  rw [hvalue] at hsub
  have hround : round Float (value x - 1) = value x - 1 := round_representable _ hrepresentable
  have hfinite : isFinite (x - 1.0) = true := by
    refine hsub.finite_of_abs_le hone ?_
    rw [hround, hvalue, abs_one, abs_le]
    constructor <;> linarith
  obtain ⟨hmagnitude, hdistance⟩ := magnitude_finite (x - 1.0) hfinite
  rw [hsub.value_eq hfinite, hround] at hdistance
  have htolerance : isFinite (weightTolerance : Float) = true := tolerance_finite.1
  unfold isNearOne
  rw [Bool.not_eq_true', less_eq_false_iff htolerance hmagnitude, hdistance, hk]
  exact grid_le_tolerance k

end Grid

/-- A total of weights is near one exactly if it is a finite number at most `1e-9` away. -/
theorem isNearOne_total_iff {ws : List Float} (hw : ∀ w ∈ ws, IsWeight w) :
    isNearOne (total ws) = true ↔
      isFinite (total ws) = true ∧ |value (total ws) - 1| ≤ 1 / 10 ^ 9 := by
  constructor
  · intro h
    obtain ⟨hfinite, hnear⟩ := total_near_one hw h
    obtain ⟨hlow, hhigh⟩ := abs_le.1 hnear
    norm_num at hlow hhigh
    exact ⟨hfinite, (isNearOne_iff hfinite (by linarith) (by linarith)).1 h⟩
  · rintro ⟨hfinite, hnear⟩
    obtain ⟨hlow, hhigh⟩ := abs_le.1 hnear
    norm_num at hlow hhigh
    exact (isNearOne_iff hfinite (by linarith) (by linarith)).2 hnear

end SeededArt
