import SeededArt.Proofs.Numbers.Rounding
import Mathlib.Data.Int.Log
/-!
# Rounding to the nearest number of a format

`nearestMagnitude` rounds a rational to a multiple of a power of two, the unit of its magnitude, and
a tie to the even multiple. The unit is the least power of two with which the mantissa fits the
format. Rounding is monotone (`nearestMagnitude_mono`): two magnitudes of one unit are rounded by
one monotone function, and between magnitudes of different units lies a power of two that neither
rounding crosses. It fixes every number whose mantissa fits (`nearestMagnitude_representable`).
`nearest` is the same for doubles and with signs.
-/

namespace SeededArt

open Decimal

/-- The nearest integer, and of two the even one. -/
def roundEven (q : ℚ) : ℤ :=
  if Int.fract q < 1 / 2 then ⌊q⌋
  else if 1 / 2 < Int.fract q then ⌊q⌋ + 1
  else ⌊q⌋ + ⌊q⌋ % 2

theorem roundEven_bounds (q : ℚ) : ⌊q⌋ ≤ roundEven q ∧ roundEven q ≤ ⌊q⌋ + 1 := by
  unfold roundEven
  split_ifs <;> omega

theorem roundEven_intCast (n : ℤ) : roundEven n = n := by
  unfold roundEven
  rw [Int.fract_intCast, Int.floor_intCast, if_pos (by norm_num)]

theorem roundEven_mono {p q : ℚ} (hpq : p ≤ q) : roundEven p ≤ roundEven q := by
  rcases (Int.floor_mono hpq).lt_or_eq with hlt | heq
  · have hp := (roundEven_bounds p).2
    have hq := (roundEven_bounds q).1
    omega
  · have hfract : Int.fract p ≤ Int.fract q := by
      rw [Int.fract, Int.fract, heq]
      linarith
    unfold roundEven
    rw [heq]
    split_ifs with h1 h2 h3 h4 h5
    all_goals first | omega | (exfalso; linarith)

/-- Rounding to the nearest integer hits an integer from half a step away at most, and from exactly
half a step only if it is even. -/
theorem roundEven_eq_iff {q : ℚ} {n : ℤ} :
    roundEven q = n ↔
      if n % 2 = 0 then (n - 1 / 2 ≤ q ∧ q ≤ n + 1 / 2) else (n - 1 / 2 < q ∧ q < n + 1 / 2) := by
  obtain ⟨f, r, hf, hr, hq, hnonneg, hlt⟩ : ∃ (f : ℤ) (r : ℚ), ⌊q⌋ = f ∧ Int.fract q = r ∧
      f + r = q ∧ 0 ≤ r ∧ r < 1 :=
    ⟨_, _, rfl, rfl, Int.floor_add_fract q, Int.fract_nonneg q, Int.fract_lt_one q⟩
  unfold roundEven
  rw [hf, hr, ← hq]
  constructor
  · rintro rfl
    split_ifs with hlow hhigh
    · constructor <;> linarith
    · constructor <;> linarith
    · push_cast
      constructor <;> linarith
    · push_cast
      constructor <;> linarith
    · have hhalf : r = 1 / 2 := by linarith
      have hparity : f % 2 = 0 ∨ f % 2 = 1 := by omega
      rcases hparity with h | h
      · rw [h, hhalf]
        constructor <;> push_cast <;> linarith
      · rw [h, hhalf]
        constructor <;> push_cast <;> linarith
    · omega
  · intro hmem
    have hmem' : n - 1 / 2 ≤ f + r ∧ f + r ≤ n + 1 / 2 := by
      split_ifs at hmem
      · exact hmem
      · exact ⟨hmem.1.le, hmem.2.le⟩
    have hlow : n - 2 < f := by
      have : (n : ℚ) - 2 < f := by linarith
      exact_mod_cast this
    have hhigh : f < n + 1 := by
      have : (f : ℚ) < n + 1 := by linarith
      exact_mod_cast this
    have hcases : f = n ∨ f = n - 1 := by omega
    rcases hcases with rfl | rfl
    · rcases lt_or_eq_of_le (show r ≤ 1 / 2 by linarith) with hr | rfl
      · rw [if_pos hr]
      · have heven : f % 2 = 0 := by
          by_contra hodd
          rw [if_neg hodd] at hmem
          linarith [hmem.2]
        rw [if_neg (lt_irrefl _), if_neg (lt_irrefl _), heven, add_zero]
    · push_cast at hmem hmem'
      rcases lt_or_eq_of_le (show 1 / 2 ≤ r by linarith) with hr | rfl
      · rw [if_neg (not_lt.2 hr.le), if_pos hr, sub_add_cancel]
      · have heven : n % 2 = 0 := by
          by_contra hodd
          rw [if_neg hodd] at hmem
          linarith [hmem.1]
        rw [if_neg (lt_irrefl _), if_neg (lt_irrefl _)]
        omega

theorem roundEven_le_add_half (q : ℚ) : (roundEven q : ℚ) ≤ q + 1 / 2 := by
  have hsplit := Int.floor_add_fract q
  have hfract := Int.fract_nonneg q
  have hparity : ((⌊q⌋ % 2 : ℤ) : ℚ) ≤ 1 := by
    have : ⌊q⌋ % 2 ≤ 1 := by omega
    exact_mod_cast this
  unfold roundEven
  split_ifs <;> push_cast <;> linarith

/-- Rounding a quotient of natural numbers looks at the remainder. -/
theorem roundEven_div (num : ℕ) {den : ℕ} (hden : 0 < den) :
    roundEven (num / den) = roundQuotient num den := by
  have hpos : (0 : ℚ) < den := by exact_mod_cast hden
  have hlow : ((num % den : ℕ) / den : ℚ) < 1 / 2 ↔ 2 * (num % den) < den := by
    rw [div_lt_div_iff₀ hpos (by norm_num), one_mul, mul_comm]
    norm_cast
  have hhigh : (1 / 2 : ℚ) < (num % den : ℕ) / den ↔ den < 2 * (num % den) := by
    rw [div_lt_div_iff₀ (by norm_num) hpos, one_mul, mul_comm]
    norm_cast
  unfold roundEven
  rw [Int.fract_div_natCast_eq_div_natCast_mod, Rat.floor_natCast_div_natCast,
    roundQuotient]
  simp only [hlow, hhigh]
  split_ifs <;> push_cast <;> rfl

def unitExponent (f : Format) (q : ℚ) : ℤ := max (Int.log 2 q + 1 - f.precision) f.least

/-- The number of a format nearest to a magnitude, without a bound on its size. -/
def nearestMagnitude (f : Format) (q : ℚ) : ℚ :=
  roundEven (q / 2 ^ unitExponent f q) * 2 ^ unitExponent f q

/-- The double nearest to a rational, without a bound on its size. -/
def nearest (q : ℚ) : ℚ :=
  if q < 0 then -nearestMagnitude .binary64 (-q)
  else if q = 0 then 0
  else nearestMagnitude .binary64 q

theorem unitExponent_binary64 (q : ℚ) :
    unitExponent .binary64 q = max (Int.log 2 q - 52) (-1074) := by
  show max (Int.log 2 q + 1 - (53 : ℕ)) (-1074) = _
  omega

section Magnitude

variable {f : Format} {p q : ℚ}

theorem two_zpow_pos (e : ℤ) : (0 : ℚ) < 2 ^ e := zpow_pos (by norm_num) e

theorem ten_zpow_pos (e : ℤ) : (0 : ℚ) < 10 ^ e := zpow_pos (by norm_num) e

theorem zpow_log_le (hq : 0 < q) : (2 : ℚ) ^ Int.log 2 q ≤ q := by
  exact_mod_cast Int.zpow_log_le_self (b := 2) (by norm_num) hq

theorem lt_zpow_log (q : ℚ) : q < 2 ^ (Int.log 2 q + 1) := by
  exact_mod_cast Int.lt_zpow_succ_log_self (b := 2) (by norm_num) q

theorem unitExponent_mono (hp : 0 < p) (h : p ≤ q) : unitExponent f p ≤ unitExponent f q :=
  max_le_max (by have := Int.log_mono_right (b := 2) hp h; omega) le_rfl

theorem least_le_unitExponent (f : Format) (q : ℚ) : f.least ≤ unitExponent f q :=
  le_max_right _ _

/-- A magnitude has fewer units than a mantissa can count. -/
theorem lt_unit (f : Format) (q : ℚ) : q < 2 ^ (unitExponent f q + f.precision) := by
  calc q < 2 ^ (Int.log 2 q + 1) := lt_zpow_log q
    _ ≤ 2 ^ (unitExponent f q + f.precision) := by
      refine zpow_le_zpow_right₀ (by norm_num) ?_
      have := le_max_left (Int.log 2 q + 1 - f.precision) f.least
      unfold unitExponent
      omega

/-- Above the least unit a magnitude has a full mantissa of units. -/
theorem zpow_unit_le (hq : 0 < q) (h : f.least < unitExponent f q) :
    2 ^ (unitExponent f q + (f.precision - 1)) ≤ q := by
  have hlog : Int.log 2 q = unitExponent f q + (f.precision - 1) := by
    unfold unitExponent at h ⊢
    omega
  rw [← hlog]
  exact zpow_log_le hq

/-- A magnitude that is not too small has a full mantissa of units. -/
theorem unit_le (hq : 2 ^ (f.least + (f.precision - 1)) ≤ q) :
    2 ^ (unitExponent f q + (f.precision - 1)) ≤ q := by
  have hpos : 0 < q := lt_of_lt_of_le (two_zpow_pos _) hq
  have hlog : f.least + (f.precision - 1) ≤ Int.log 2 q := by
    rw [← Int.zpow_le_iff_le_log (by norm_num) hpos]
    exact_mod_cast hq
  have hexponent : unitExponent f q + (f.precision - 1) = Int.log 2 q := by
    unfold unitExponent
    omega
  rw [hexponent]
  exact zpow_log_le hpos

theorem unitExponent_le_of_lt {e : ℤ} (hq : 0 < q) (h : q < 2 ^ (e + f.precision))
    (he : f.least ≤ e) : unitExponent f q ≤ e := by
  have hlog : Int.log 2 q < e + f.precision := by
    rw [← Int.lt_zpow_iff_log_lt (by norm_num) hq]
    exact_mod_cast h
  unfold unitExponent
  omega

theorem nearestMagnitude_nonneg (hq : 0 ≤ q) : 0 ≤ nearestMagnitude f q := by
  have hround : 0 ≤ roundEven (q / 2 ^ unitExponent f q) := by
    have h := roundEven_mono (div_nonneg hq (two_zpow_pos (unitExponent f q)).le)
    rwa [← Int.cast_zero, roundEven_intCast] at h
  have := two_zpow_pos (unitExponent f q)
  unfold nearestMagnitude
  positivity

theorem nearestMagnitude_zero (f : Format) : nearestMagnitude f 0 = 0 := by
  have hzero := roundEven_intCast 0
  rw [Int.cast_zero] at hzero
  rw [nearestMagnitude, zero_div, hzero, Int.cast_zero, zero_mul]

/-- Rounding does not pass the power of two above a magnitude. -/
theorem nearestMagnitude_le (f : Format) (q : ℚ) :
    nearestMagnitude f q ≤ 2 ^ (unitExponent f q + f.precision) := by
  have hunit := two_zpow_pos (unitExponent f q)
  have hsplit : (2 : ℚ) ^ (unitExponent f q + f.precision) =
      ((2 ^ f.precision : ℤ) : ℚ) * 2 ^ unitExponent f q := by
    rw [add_comm, zpow_add₀ two_ne_zero, zpow_natCast]
    push_cast
    rfl
  have hscaled : q / 2 ^ unitExponent f q ≤ ((2 ^ f.precision : ℤ) : ℚ) := by
    rw [div_le_iff₀ hunit, ← hsplit]
    exact (lt_unit f q).le
  have h := roundEven_mono hscaled
  rw [roundEven_intCast] at h
  rw [hsplit]
  exact mul_le_mul_of_nonneg_right (by exact_mod_cast h) hunit.le

/-- Rounding does not pass a power of two below a magnitude. -/
theorem le_nearestMagnitude {e : ℤ} (he : unitExponent f q ≤ e) (h : 2 ^ e ≤ q) :
    2 ^ e ≤ nearestMagnitude f q := by
  have hunit := two_zpow_pos (unitExponent f q)
  have hint : ((2 ^ (e - unitExponent f q).toNat : ℤ) : ℚ) = 2 ^ e / 2 ^ unitExponent f q := by
    rw [← zpow_sub₀ (by norm_num)]
    push_cast
    rw [← zpow_natCast, Int.toNat_of_nonneg (by omega)]
  have hscaled : ((2 ^ (e - unitExponent f q).toNat : ℤ) : ℚ) ≤ q / 2 ^ unitExponent f q := by
    rw [hint]
    gcongr
  have hround := roundEven_mono hscaled
  rw [roundEven_intCast] at hround
  have hcast : 2 ^ e / 2 ^ unitExponent f q ≤ (roundEven (q / 2 ^ unitExponent f q) : ℚ) := by
    rw [← hint]
    exact_mod_cast hround
  rw [div_le_iff₀ hunit] at hcast
  exact hcast

theorem nearestMagnitude_mono (hf : 0 < f.precision) (hp : 0 < p) (h : p ≤ q) :
    nearestMagnitude f p ≤ nearestMagnitude f q := by
  rcases (unitExponent_mono (f := f) hp h).lt_or_eq with hlt | heq
  · -- `q` has a greater unit than the least, so it has a full mantissa of its units
    have hfull := zpow_unit_le (hp.trans_le h) ((least_le_unitExponent f p).trans_lt hlt)
    calc nearestMagnitude f p ≤ 2 ^ (unitExponent f p + f.precision) := nearestMagnitude_le f p
      _ ≤ 2 ^ (unitExponent f q + (f.precision - 1)) :=
        zpow_le_zpow_right₀ (by norm_num) (by omega)
      _ ≤ nearestMagnitude f q := le_nearestMagnitude (by omega) hfull
  · have hunit := two_zpow_pos (unitExponent f q)
    rw [nearestMagnitude, nearestMagnitude, heq]
    have hround : roundEven (p / 2 ^ unitExponent f q) ≤ roundEven (q / 2 ^ unitExponent f q) :=
      roundEven_mono (by gcongr)
    have hcast : (roundEven (p / 2 ^ unitExponent f q) : ℚ) ≤
        roundEven (q / 2 ^ unitExponent f q) := by
      exact_mod_cast hround
    exact mul_le_mul_of_nonneg_right hcast hunit.le

theorem nearestMagnitude_of_unit_le {m e : ℤ} (he : unitExponent f (m * 2 ^ e) ≤ e) :
    nearestMagnitude f (m * 2 ^ e) = m * 2 ^ e := by
  have hunit := two_zpow_pos (unitExponent f (m * 2 ^ e))
  have hn : (m * 2 ^ e : ℚ) = ((m * 2 ^ (e - unitExponent f (m * 2 ^ e)).toNat : ℤ) : ℚ) *
      2 ^ unitExponent f (m * 2 ^ e) := by
    push_cast
    rw [← zpow_natCast, Int.toNat_of_nonneg (by omega), mul_assoc, ← zpow_add₀ (by norm_num),
      sub_add_cancel]
  unfold nearestMagnitude
  rw [div_eq_of_eq_mul hunit.ne' hn, roundEven_intCast]
  exact hn.symm

theorem nearestMagnitude_representable (hf : 0 < f.precision) {m e : ℤ} (hm : 0 < m)
    (hm' : m ≤ 2 ^ f.precision) (he : f.least ≤ e) :
    nearestMagnitude f (m * 2 ^ e) = m * 2 ^ e := by
  have hpow := two_zpow_pos e
  have hpos : (0 : ℚ) < m := by exact_mod_cast hm
  rcases hm'.lt_or_eq with hlt | rfl
  · refine nearestMagnitude_of_unit_le (unitExponent_le_of_lt (by positivity) ?_ he)
    rw [add_comm, zpow_add₀ two_ne_zero, zpow_natCast]
    exact mul_lt_mul_of_pos_right (by exact_mod_cast hlt) hpow
  · have hone : (((2 : ℤ) ^ f.precision : ℤ) : ℚ) * 2 ^ e =
        ((1 : ℤ) : ℚ) * 2 ^ (e + f.precision) := by
      rw [add_comm, zpow_add₀ two_ne_zero, zpow_natCast]
      push_cast
      ring
    rw [hone]
    refine nearestMagnitude_of_unit_le (unitExponent_le_of_lt ?_ ?_ (by omega))
    · rw [Int.cast_one, one_mul]
      exact two_zpow_pos _
    · rw [Int.cast_one, one_mul]
      exact zpow_lt_zpow_right₀ (by norm_num) (by omega)

/-- A magnitude counted in units. -/
theorem nearestMagnitude_mul_zpow {x : ℚ} {e : ℤ} (h : unitExponent f (x * 2 ^ e) = e) :
    nearestMagnitude f (x * 2 ^ e) = roundEven x * 2 ^ e := by
  unfold nearestMagnitude
  rw [h, mul_div_cancel_right₀ x (two_zpow_pos e).ne']

/-- Rounding raises a magnitude by half its unit at most. -/
theorem nearestMagnitude_le_add (f : Format) (q : ℚ) :
    nearestMagnitude f q ≤ q + 2 ^ unitExponent f q / 2 := by
  have hunit := two_zpow_pos (unitExponent f q)
  calc nearestMagnitude f q ≤ (q / 2 ^ unitExponent f q + 1 / 2) * 2 ^ unitExponent f q :=
        mul_le_mul_of_nonneg_right (roundEven_le_add_half _) hunit.le
    _ = q + 2 ^ unitExponent f q / 2 := by
        field_simp

/-- Rounding leaves a whole number of units, up to a full mantissa and one more. -/
theorem roundEven_unit_mem (hf : 0 < f.precision) (hq : 0 < q) :
    0 ≤ roundEven (q / 2 ^ unitExponent f q) ∧
      roundEven (q / 2 ^ unitExponent f q) ≤ 2 ^ f.precision ∧
      (2 ^ (f.precision - 1) ≤ roundEven (q / 2 ^ unitExponent f q) ∨
        unitExponent f q = f.least) := by
  have hunit := two_zpow_pos (unitExponent f q)
  have hvalue : nearestMagnitude f q =
      roundEven (q / 2 ^ unitExponent f q) * 2 ^ unitExponent f q := rfl
  generalize roundEven (q / 2 ^ unitExponent f q) = r at hvalue
  refine ⟨?_, ?_, ?_⟩
  · have h := nearestMagnitude_nonneg (f := f) hq.le
    rw [hvalue] at h
    exact_mod_cast nonneg_of_mul_nonneg_left h hunit
  · have h := nearestMagnitude_le f q
    rw [hvalue, add_comm, zpow_add₀ two_ne_zero, zpow_natCast, mul_le_mul_iff_left₀ hunit] at h
    exact_mod_cast h
  · by_cases hleast : unitExponent f q = f.least
    · exact .inr hleast
    · -- above the least unit the magnitude is a full mantissa of units, which rounding keeps
      left
      have hmore := lt_of_le_of_ne (least_le_unitExponent f q) (Ne.symm hleast)
      have h := le_nearestMagnitude (f := f) (by omega) (zpow_unit_le hq hmore)
      have hexponent : (f.precision : ℤ) - 1 = ((f.precision - 1 : ℕ) : ℤ) := by omega
      rw [hvalue, add_comm, zpow_add₀ two_ne_zero, hexponent, zpow_natCast,
        mul_le_mul_iff_left₀ hunit] at h
      exact_mod_cast h

end Magnitude

theorem nearest_zero : nearest 0 = 0 := by
  unfold nearest
  rw [if_neg (lt_irrefl 0), if_pos rfl]

theorem nearest_neg (q : ℚ) : nearest (-q) = -nearest q := by
  unfold nearest
  rcases lt_trichotomy q 0 with h | rfl | h
  · rw [if_neg (by linarith), if_neg (by linarith), if_pos h]
    simp
  · simp
  · rw [if_pos (by linarith), if_neg (by linarith), if_neg h.ne', neg_neg]

theorem nearest_mono : Monotone nearest := by
  intro p q hpq
  unfold nearest
  rcases lt_trichotomy p 0 with hp | rfl | hp
  · rw [if_pos hp]
    have hp' := nearestMagnitude_nonneg (f := .binary64) (neg_pos.2 hp).le
    split_ifs with h1 h2
    · have := nearestMagnitude_mono (f := .binary64) (by decide) (neg_pos.2 h1) (neg_le_neg hpq)
      linarith
    · linarith
    · have := nearestMagnitude_nonneg (f := .binary64) (not_lt.1 h1)
      linarith
  · rw [if_neg (lt_irrefl 0), if_pos rfl, if_neg (not_lt.2 hpq)]
    split_ifs with h
    · exact le_refl 0
    · exact nearestMagnitude_nonneg hpq
  · rw [if_neg (by linarith), if_neg hp.ne', if_neg (by linarith), if_neg (by linarith)]
    exact nearestMagnitude_mono (by decide) hp hpq

theorem nearest_representable {q : ℚ} (h : Representable q) : nearest q = q := by
  obtain ⟨m, e, hm, he, rfl⟩ := h
  have hpow := two_zpow_pos e
  have hbounds := abs_le.1 hm
  rcases lt_trichotomy m 0 with hneg | rfl | hpos
  · have h := nearestMagnitude_representable (f := .binary64) (by decide) (m := -m) (by omega)
      (show -m ≤ 2 ^ 53 by omega) he
    have hlt : (m * 2 ^ e : ℚ) < 0 := by
      have : (m : ℚ) < 0 := by exact_mod_cast hneg
      exact mul_neg_of_neg_of_pos this hpow
    rw [Int.cast_neg, neg_mul] at h
    unfold nearest
    rw [if_pos hlt, h, neg_neg]
  · rw [Int.cast_zero, zero_mul, nearest_zero]
  · have hlt : (0 : ℚ) < m * 2 ^ e := by
      have : (0 : ℚ) < m := by exact_mod_cast hpos
      positivity
    unfold nearest
    rw [if_neg (not_lt.2 hlt.le), if_neg hlt.ne',
      nearestMagnitude_representable (by decide) hpos hbounds.2 he]

/-- Rounding does not cross a number that it leaves alone. -/
theorem nearest_le_of_representable {q r : ℚ} (hr : Representable r) (h : q ≤ r) : nearest q ≤ r :=
  (nearest_mono h).trans_eq (nearest_representable hr)

theorem le_nearest_of_representable {q r : ℚ} (hr : Representable r) (h : r ≤ q) : r ≤ nearest q :=
  (nearest_representable hr).symm.trans_le (nearest_mono h)

theorem lt_of_nearest_lt {q r : ℚ} (hr : Representable r) (h : nearest q < r) : q < r := by
  by_contra hge
  exact absurd (le_nearest_of_representable hr (not_lt.1 hge)) (not_le.2 h)

end SeededArt
