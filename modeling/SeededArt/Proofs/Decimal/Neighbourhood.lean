import SeededArt.Decimal.Shortest
import SeededArt.Proofs.Numbers.Quotient
/-!
# Neighbourhoods of doubles

A point lies in a neighbourhood (`Neighbourhood.Contains`) as its ends say. The neighbourhood of a
canonical number holds exactly the magnitudes that are rounded to the number
(`nearestMagnitude_eq_iff`): one by one for the magnitudes of its own unit, none of a greater unit,
and of a smaller unit those of the narrow part below a power of two. The test of a grid point in
whole numbers decides whether the point lies in the neighbourhood (`holds_iff`).
-/

namespace SeededArt.Decimal.Neighbourhood

/-! ## Points -/

/-- A point of a neighbourhood. -/
def Contains (b : Neighbourhood) (q : ℚ) : Prop :=
  if b.closed then b.low * 2 ^ b.unit ≤ q ∧ q ≤ b.high * 2 ^ b.unit
  else b.low * 2 ^ b.unit < q ∧ q < b.high * 2 ^ b.unit

section Points

variable {b : Neighbourhood} {p q r : ℚ}

theorem Contains.between (hp : b.Contains p) (hr : b.Contains r) (hpq : p ≤ q) (hqr : q ≤ r) :
    b.Contains q := by
  unfold Contains at *
  split_ifs at *
  · exact ⟨hp.1.trans hpq, hqr.trans hr.2⟩
  · exact ⟨hp.1.trans_le hpq, hqr.trans_lt hr.2⟩

/-- A neighbourhood that lies around its value and above zero. -/
structure IsAround (b : Neighbourhood) : Prop where
  low_pos : 0 < b.low
  low_lt : b.low < b.value
  lt_high : b.value < b.high

theorem isAround_of {m : ℕ} (hm : 0 < m) (f : Decimal.Format) (e : ℤ) :
    (Neighbourhood.of f m e).IsAround := by
  have hgap : 0 < (if m = f.band ∧ f.least < e then 1 else 2) ∧
      (if m = f.band ∧ f.least < e then 1 else 2) < 4 * m := by
    split_ifs <;> omega
  exact ⟨Nat.sub_pos_of_lt hgap.2, Nat.sub_lt (by omega) hgap.1, Nat.lt_add_of_pos_right two_pos⟩

theorem IsAround.contains_of_lt (hb : b.IsAround) (hlow : b.low * 2 ^ b.unit < q)
    (hle : q ≤ b.value * 2 ^ b.unit) : b.Contains q := by
  have hhigh : q < b.high * 2 ^ b.unit := by
    have hlt : (b.value : ℚ) < b.high := by exact_mod_cast hb.lt_high
    exact hle.trans_lt (mul_lt_mul_of_pos_right hlt (two_zpow_pos b.unit))
  unfold Contains
  split_ifs
  · exact ⟨hlow.le, hhigh.le⟩
  · exact ⟨hlow, hhigh⟩

theorem IsAround.contains_value (hb : b.IsAround) : b.Contains (b.value * 2 ^ b.unit) := by
  have hlt : (b.low : ℚ) < b.value := by exact_mod_cast hb.low_lt
  exact hb.contains_of_lt (mul_lt_mul_of_pos_right hlt (two_zpow_pos b.unit)) le_rfl

theorem IsAround.pos (hb : b.IsAround) (h : b.Contains q) : 0 < q := by
  have hlow : (0 : ℚ) < b.low * 2 ^ b.unit :=
    mul_pos (by exact_mod_cast hb.low_pos) (two_zpow_pos b.unit)
  unfold Contains at h
  split_ifs at h
  · exact hlow.trans_le h.1
  · exact hlow.trans h.1

end Points

/-! ## Points of a grid -/

section Grid

variable {b : Neighbourhood} {power : ℤ}

theorem IsAround.digits_pos (hb : b.IsAround) {n : ℕ} (h : b.Contains (n * 10 ^ power)) :
    0 < n := by
  exact_mod_cast (pos_of_mul_pos_left (hb.pos h) (ten_zpow_pos power).le : (0 : ℚ) < n)

theorem step_pos (power unit : ℤ) : 0 < (Grid.at power unit).step :=
  Nat.mul_pos (raise_pos (by norm_num) power) (raise_pos two_pos (-unit))

theorem scale_pos (power unit : ℤ) : 0 < (Grid.at power unit).scale :=
  Nat.mul_pos (raise_pos (by norm_num) (-power)) (raise_pos two_pos unit)

/-- A step of the grid against a unit of the neighbourhood. -/
theorem step_mul_zpow (power unit : ℤ) :
    ((Grid.at power unit).step : ℚ) * 2 ^ unit = 10 ^ power * (Grid.at power unit).scale := by
  have hcancel : (2 : ℚ) ^ (-unit) * 2 ^ unit = 1 := by
    rw [← zpow_add₀ two_ne_zero, neg_add_cancel, zpow_zero]
  calc ((Grid.at power unit).step : ℚ) * 2 ^ unit
      = raise 10 power * (raise 2 (-unit) * 2 ^ unit) := by
        rw [Grid.at, Nat.cast_mul, mul_assoc]
    _ = 10 ^ power * raise 10 (-power) * (raise 2 unit * (2 ^ (-unit) * 2 ^ unit)) := by
        rw [raise_eq (by norm_num) power, raise_eq two_pos (-unit), neg_neg]
        push_cast
        ring
    _ = 10 ^ power * (Grid.at power unit).scale := by
        rw [hcancel, mul_one, mul_assoc, ← Nat.cast_mul]
        rfl

/-- Grid points compare with points of the neighbourhood as their counts do. -/
theorem mul_scale_le_iff (n a : ℕ) :
    a * (Grid.at power b.unit).scale ≤ n * (Grid.at power b.unit).step ↔
      (a : ℚ) * 2 ^ b.unit ≤ n * 10 ^ power := by
  have hscale : (0 : ℚ) < (Grid.at power b.unit).scale := by exact_mod_cast scale_pos power b.unit
  rw [← Nat.cast_le (α := ℚ), ← mul_le_mul_iff_left₀ (two_zpow_pos b.unit), Nat.cast_mul,
    Nat.cast_mul, mul_assoc (n : ℚ), step_mul_zpow, mul_right_comm, ← mul_assoc,
    mul_le_mul_iff_left₀ hscale]

theorem le_mul_scale_iff (n a : ℕ) :
    n * (Grid.at power b.unit).step ≤ a * (Grid.at power b.unit).scale ↔
      (n : ℚ) * 10 ^ power ≤ a * 2 ^ b.unit := by
  have hscale : (0 : ℚ) < (Grid.at power b.unit).scale := by exact_mod_cast scale_pos power b.unit
  rw [← Nat.cast_le (α := ℚ), ← mul_le_mul_iff_left₀ (two_zpow_pos b.unit), Nat.cast_mul,
    Nat.cast_mul, mul_assoc (n : ℚ), step_mul_zpow, mul_right_comm, ← mul_assoc,
    mul_le_mul_iff_left₀ hscale]

theorem holds_iff (n : ℕ) : b.holds (.at power b.unit) n = true ↔ b.Contains (n * 10 ^ power) := by
  unfold holds Contains
  split_ifs
  · rw [Bool.and_eq_true, decide_eq_true_iff, decide_eq_true_iff, mul_scale_le_iff,
      le_mul_scale_iff]
  · rw [Bool.and_eq_true, decide_eq_true_iff, decide_eq_true_iff, ← not_le, ← not_le,
      mul_scale_le_iff, le_mul_scale_iff, not_le, not_le]

end Grid

end SeededArt.Decimal.Neighbourhood

/-! ## Magnitudes that are rounded to a number -/

namespace SeededArt

open Decimal Neighbourhood

section Units

variable {m : ℕ} {e : ℤ} {x : ℚ}

/-- Half a step below the mantissa, and a quarter where the gap is half as wide. -/
def lowerGap (m : ℕ) (e : ℤ) : ℚ := if m = 2 ^ 52 ∧ -1074 < e then 1 / 4 else 1 / 2

/-- The neighbourhood counted in units of the magnitude. -/
theorem contains_of_iff (hm : 0 < m) (x : ℚ) :
    (Neighbourhood.of .binary64 m e).Contains (x * 2 ^ e) ↔
      if m % 2 = 0 then m - lowerGap m e ≤ x ∧ x ≤ m + 1 / 2
      else m - lowerGap m e < x ∧ x < m + 1 / 2 := by
  have hunit : (2 : ℚ) ^ e = 4 * 2 ^ (e - 2) := by
    rw [zpow_sub₀ two_ne_zero]
    norm_num
    ring
  have hpos : (0 : ℚ) < 4 * 2 ^ (e - 2) := by
    have := two_zpow_pos (e - 2)
    positivity
  have hlow : ((Neighbourhood.of .binary64 m e).low : ℚ) * 2 ^ (e - 2) =
      (m - lowerGap m e) * (4 * 2 ^ (e - 2)) := by
    have hcast : ((Neighbourhood.of .binary64 m e).low : ℚ) = 4 * (m - lowerGap m e) := by
      show ((4 * m - if m = 2 ^ 52 ∧ -1074 < e then 1 else 2 : ℕ) : ℚ) = _
      unfold lowerGap
      split_ifs <;>
      · rw [Nat.cast_sub (by omega)]
        push_cast
        ring
    rw [hcast]
    ring
  have hhigh : ((Neighbourhood.of .binary64 m e).high : ℚ) * 2 ^ (e - 2) =
      (m + 1 / 2) * (4 * 2 ^ (e - 2)) := by
    show ((4 * m + 2 : ℕ) : ℚ) * 2 ^ (e - 2) = _
    push_cast
    ring
  have hclosed : (Neighbourhood.of .binary64 m e).closed = decide (m % 2 = 0) := rfl
  have hscale : (Neighbourhood.of .binary64 m e).unit = e - 2 := rfl
  unfold Contains
  rw [hscale, hlow, hhigh, hclosed, hunit, mul_le_mul_iff_left₀ hpos, mul_le_mul_iff_left₀ hpos,
    mul_lt_mul_iff_left₀ hpos, mul_lt_mul_iff_left₀ hpos]
  simp only [decide_eq_true_eq]

theorem lowerGap_mem (m : ℕ) (e : ℤ) : 0 < lowerGap m e ∧ lowerGap m e ≤ 1 / 2 := by
  unfold lowerGap
  split_ifs <;> norm_num

theorem zpow_mul_le_iff (n : ℕ) : (2 : ℚ) ^ (e + n) ≤ x * 2 ^ e ↔ 2 ^ n ≤ x := by
  rw [add_comm, zpow_add₀ two_ne_zero, zpow_natCast, mul_le_mul_iff_left₀ (two_zpow_pos e)]

theorem mul_zpow_le_iff (n : ℕ) : x * 2 ^ e ≤ 2 ^ (e + n) ↔ x ≤ 2 ^ n := by
  rw [add_comm, zpow_add₀ two_ne_zero, zpow_natCast, mul_le_mul_iff_left₀ (two_zpow_pos e)]

/-- Of the same unit, magnitudes round to the nearest mantissa. -/
theorem nearest_iff_of_unit_eq (hm : 0 < m) (hx : 0 < x * 2 ^ e)
    (h : unitExponent .binary64 (x * 2 ^ e) = e) :
    nearestMagnitude .binary64 (x * 2 ^ e) = m * 2 ^ e ↔
      (Neighbourhood.of .binary64 m e).Contains (x * 2 ^ e) := by
  have hround : nearestMagnitude .binary64 (x * 2 ^ e) = m * 2 ^ e ↔ roundEven x = (m : ℤ) := by
    rw [nearestMagnitude_mul_zpow h, mul_left_inj' (two_zpow_pos e).ne', ← Int.cast_natCast,
      Int.cast_inj]
  have heven : ((m : ℤ) % 2 = 0) ↔ m % 2 = 0 := by omega
  rw [hround, contains_of_iff hm, roundEven_eq_iff]
  simp only [heven, Int.cast_natCast]
  by_cases hgap : m = 2 ^ 52 ∧ -1074 < e
  · -- the smaller gap lies below all magnitudes of this unit
    obtain ⟨rfl, hleast⟩ := hgap
    have hlow : (2 : ℚ) ^ (e + (52 : ℕ)) ≤ x * 2 ^ e := by
      have hmore : -1074 < unitExponent .binary64 (x * 2 ^ e) := by rwa [h]
      have hunit := zpow_unit_le hx hmore
      rwa [h] at hunit
    have hgap : lowerGap (2 ^ 52) e = 1 / 4 := if_pos ⟨rfl, hleast⟩
    rw [zpow_mul_le_iff] at hlow
    rw [if_pos (by norm_num), if_pos (by norm_num), hgap]
    norm_num at hlow ⊢
    exact fun _ => iff_of_true (by linarith) (by linarith)
  · unfold lowerGap
    rw [if_neg hgap]

/-- Magnitudes of a greater unit lie beyond the neighbourhood, and are rounded beyond it. -/
theorem nearest_iff_of_lt_unit (hm : 0 < m) (hc : Canonical .binary64 m e) (hx : 0 < x * 2 ^ e)
    (h : e < unitExponent .binary64 (x * 2 ^ e)) :
    nearestMagnitude .binary64 (x * 2 ^ e) = m * 2 ^ e ↔
      (Neighbourhood.of .binary64 m e).Contains (x * 2 ^ e) := by
  have hmax : (m : ℚ) + 1 ≤ 2 ^ 53 := by exact_mod_cast hc.lt
  have hunit : (2 : ℚ) ^ (unitExponent .binary64 (x * 2 ^ e) + 52) ≤ x * 2 ^ e :=
    zpow_unit_le hx (hc.exponent_ge.trans_lt h)
  have hexponent : (2 : ℚ) ^ (e + (53 : ℕ)) ≤ 2 ^ (unitExponent .binary64 (x * 2 ^ e) + 52) :=
    zpow_le_zpow_right₀ one_le_two (by push_cast; omega)
  have hfar : (2 : ℚ) ^ 53 ≤ x := (zpow_mul_le_iff 53).1 (hexponent.trans hunit)
  have hround : (2 : ℚ) ^ (e + (53 : ℕ)) ≤ nearestMagnitude .binary64 (x * 2 ^ e) :=
    hexponent.trans (le_nearestMagnitude (by omega) hunit)
  rw [contains_of_iff hm]
  refine iff_of_false ?_ ?_
  · intro heq
    rw [heq, zpow_mul_le_iff] at hround
    linarith
  · split_ifs
    · rintro ⟨-, hhigh⟩
      linarith
    · rintro ⟨-, hhigh⟩
      linarith

/-- Magnitudes of a smaller unit round to the next power of two if they lie in the narrow part of
its neighbourhood. -/
theorem nearest_iff_of_unit_lt (hm : 0 < m) (hc : Canonical .binary64 m e)
    (h : unitExponent .binary64 (x * 2 ^ e) < e) :
    nearestMagnitude .binary64 (x * 2 ^ e) = m * 2 ^ e ↔
      (Neighbourhood.of .binary64 m e).Contains (x * 2 ^ e) := by
  have hleast : -1074 ≤ unitExponent .binary64 (x * 2 ^ e) := least_le_unitExponent _ _
  have hfull : 2 ^ 52 ≤ m := (canonical_binary64_iff.1 hc).2.2.resolve_right (by omega)
  -- of a small unit, a magnitude and what it is rounded to have few bits
  have hbelow (n : ℕ) (hn : n ≤ 52) (hunit : unitExponent .binary64 (x * 2 ^ e) + 53 ≤ e + n) :
      x < 2 ^ n ∧ nearestMagnitude .binary64 (x * 2 ^ e) ≤ 2 ^ (e + n) := by
    have hpow : (2 : ℚ) ^ (unitExponent .binary64 (x * 2 ^ e) + 53) ≤ 2 ^ (e + n) :=
      zpow_le_zpow_right₀ one_le_two hunit
    refine ⟨?_, (nearestMagnitude_le _ _).trans hpow⟩
    rw [← not_le, ← zpow_mul_le_iff (e := e), not_le]
    exact (lt_unit _ _).trans_le hpow
  obtain ⟨hsmall, hround⟩ := hbelow 52 le_rfl (by push_cast; omega)
  rw [contains_of_iff hm]
  rcases hfull.lt_or_eq with hlt | rfl
  · have hmore : (2 : ℚ) ^ 52 + 1 ≤ m := by exact_mod_cast hlt
    have hgap := (lowerGap_mem m e).2
    refine iff_of_false ?_ ?_
    · intro heq
      rw [heq, mul_zpow_le_iff] at hround
      linarith
    · split_ifs
      · rintro ⟨hlow, -⟩
        linarith
      · rintro ⟨hlow, -⟩
        linarith
  · have hgap : lowerGap (2 ^ 52) e = 1 / 4 := if_pos ⟨rfl, by omega⟩
    rw [if_pos (by norm_num), hgap, Nat.cast_pow, Nat.cast_ofNat]
    by_cases hnext : unitExponent .binary64 (x * 2 ^ e) = e - 1
    · -- the units are half as wide, so there are twice as many
      have hdouble : x * 2 ^ e = 2 * x * 2 ^ (e - 1) := by
        rw [zpow_sub₀ two_ne_zero]
        ring
      have hpower : (2 : ℚ) ^ 52 * 2 ^ e = ((2 ^ 53 : ℤ) : ℚ) * 2 ^ (e - 1) := by
        rw [zpow_sub₀ two_ne_zero]
        push_cast
        ring
      rw [hdouble] at hnext ⊢
      rw [nearestMagnitude_mul_zpow hnext, hpower, mul_left_inj' (two_zpow_pos _).ne',
        Int.cast_inj, roundEven_eq_iff, if_pos (by norm_num)]
      norm_num at hsmall ⊢
      constructor
      · rintro ⟨hlow, -⟩
        constructor <;> linarith
      · rintro ⟨hlow, -⟩
        constructor <;> linarith
    · obtain ⟨htiny, hround⟩ := hbelow 51 (by norm_num) (by push_cast; omega)
      refine iff_of_false ?_ ?_
      · intro heq
        rw [heq, mul_zpow_le_iff] at hround
        norm_num at hround
      · rintro ⟨hlow, -⟩
        norm_num at hlow htiny
        linarith

/-- The magnitudes that round to a canonical number are those of its neighbourhood. -/
theorem nearestMagnitude_eq_iff (hm : 0 < m) (hc : Canonical .binary64 m e) {q : ℚ} (hq : 0 < q) :
    nearestMagnitude .binary64 q = m * 2 ^ e ↔ (Neighbourhood.of .binary64 m e).Contains q := by
  obtain ⟨x, rfl⟩ : ∃ x : ℚ, q = x * 2 ^ e :=
    ⟨q / 2 ^ e, (div_mul_cancel₀ q (two_zpow_pos e).ne').symm⟩
  rcases lt_trichotomy (unitExponent .binary64 (x * 2 ^ e)) e with h | h | h
  · exact nearest_iff_of_unit_lt hm hc h
  · exact nearest_iff_of_unit_eq hm hq h
  · exact nearest_iff_of_lt_unit hm hc hq h

end Units

end SeededArt
