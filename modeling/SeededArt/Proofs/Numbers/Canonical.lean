import SeededArt.Proofs.Numbers.Nearest
/-!
# Canonical numbers of a format

A magnitude of a format has one canonical mantissa and exponent (`Canonical.unique`). The canonical
number to which rounding leads is the closest of all numbers with a mantissa that fits, and of two
that are equally close the one with the even mantissa (`isNearest_of_eq`). On the grid of its unit
this is what `roundEven` does; a number of a smaller unit is below the first power of two of the
grid, which is closer.
-/

namespace SeededArt

open Decimal

theorem band_pos (f : Format) : 0 < f.band := Nat.pow_pos two_pos

theorem band_eq (f : Format) : f.band = 2 ^ (f.precision - 1) := by
  have hpower : (f.precision - 1 : ℤ).toNat = f.precision - 1 := by omega
  rw [Format.band, raise, hpower]
  rfl

theorem two_pow_precision {f : Format} (hf : 0 < f.precision) : 2 ^ f.precision = 2 * f.band := by
  rw [band_eq, ← Nat.pow_succ', Nat.succ_eq_add_one, Nat.sub_add_cancel hf]

/-- A mantissa and exponent with which magnitudes of a format are written in one way only. -/
structure Canonical (f : Format) (m : ℕ) (e : ℤ) : Prop where
  lt : m < 2 ^ f.precision
  exponent_ge : f.least ≤ e
  full : 2 ^ (f.precision - 1) ≤ m ∨ e = f.least

theorem canonical_binary64_iff {m : ℕ} {e : ℤ} :
    Canonical .binary64 m e ↔ m < 2 ^ 53 ∧ -1074 ≤ e ∧ (2 ^ 52 ≤ m ∨ e = -1074) :=
  ⟨fun ⟨hlt, hge, hfull⟩ => ⟨hlt, hge, hfull⟩, fun ⟨hlt, hge, hfull⟩ => ⟨hlt, hge, hfull⟩⟩

theorem magnitude_pos {m : ℕ} (hm : 0 < m) (e : ℤ) : (0 : ℚ) < m * 2 ^ e := by
  have := two_zpow_pos e
  positivity

section Order

variable {f : Format} {m n : ℕ} {d e : ℤ}

/-- The power of two above all mantissas is the first one of the next exponent. -/
theorem two_pow_precision_mul_zpow (hf : 0 < f.precision) (d : ℤ) :
    ((2 ^ f.precision : ℕ) : ℚ) * 2 ^ d = f.band * 2 ^ (d + 1) := by
  rw [two_pow_precision hf, zpow_add_one₀ two_ne_zero]
  push_cast
  ring

/-- A number is below the first power of two of every greater exponent. -/
theorem magnitude_lt_band (hf : 0 < f.precision) (hm : m < 2 ^ f.precision) (h : d < e) :
    (m : ℚ) * 2 ^ d < f.band * 2 ^ e := by
  calc (m : ℚ) * 2 ^ d < (2 ^ f.precision : ℕ) * 2 ^ d :=
        mul_lt_mul_of_pos_right (by exact_mod_cast hm) (two_zpow_pos d)
    _ = f.band * 2 ^ (d + 1) := two_pow_precision_mul_zpow hf d
    _ ≤ f.band * 2 ^ e :=
        mul_le_mul_of_nonneg_left (zpow_le_zpow_right₀ one_le_two h) (Nat.cast_nonneg _)

/-- Above the least exponent the mantissa is full. -/
theorem Canonical.band_mul_le (hm : Canonical f m e) (h : f.least < e) :
    (f.band : ℚ) * 2 ^ e ≤ m * 2 ^ e := by
  have hfull : f.band ≤ m := by
    rw [band_eq]
    exact hm.full.resolve_right h.ne'
  exact mul_le_mul_of_nonneg_right (by exact_mod_cast hfull) (two_zpow_pos e).le

theorem magnitude_lt_of_exponent_lt (hf : 0 < f.precision) (hm : Canonical f m d)
    (hn : Canonical f n e) (h : d < e) : (m : ℚ) * 2 ^ d < n * 2 ^ e :=
  (magnitude_lt_band hf hm.lt h).trans_le (hn.band_mul_le (hm.exponent_ge.trans_lt h))

/-- The size of a number bounds its exponent. -/
theorem Canonical.exponent_le (hf : 0 < f.precision) (hm : Canonical f m e) (hd : f.least ≤ d)
    (h : (m : ℚ) * 2 ^ e < 2 ^ (d + f.precision)) : e ≤ d := by
  by_contra hlarge
  have hstep : (2 : ℚ) ^ (d + 1) ≤ 2 ^ e := zpow_le_zpow_right₀ one_le_two (not_le.1 hlarge)
  have hpow := two_pow_precision_mul_zpow hf d
  rw [Nat.cast_pow, Nat.cast_ofNat, ← zpow_natCast, ← zpow_add₀ two_ne_zero, add_comm] at hpow
  rw [hpow] at h
  refine absurd h (not_lt.2 ?_)
  calc (f.band : ℚ) * 2 ^ (d + 1) ≤ f.band * 2 ^ e :=
        mul_le_mul_of_nonneg_left hstep (Nat.cast_nonneg _)
    _ ≤ m * 2 ^ e := hm.band_mul_le (by omega)

theorem Canonical.unique (hf : 0 < f.precision) (hm : Canonical f m d) (hn : Canonical f n e)
    (h : (m : ℚ) * 2 ^ d = n * 2 ^ e) : m = n ∧ d = e := by
  have hexponent : d = e := by
    rcases lt_trichotomy d e with hlt | heq | hlt
    · exact absurd h (magnitude_lt_of_exponent_lt hf hm hn hlt).ne
    · exact heq
    · exact absurd h (magnitude_lt_of_exponent_lt hf hn hm hlt).ne'
  subst hexponent
  exact ⟨by exact_mod_cast mul_right_cancel₀ (two_zpow_pos d).ne' h, rfl⟩

end Order

/-! ## The closest integer -/

/-- Different integers are a whole step apart. -/
theorem one_le_abs_sub_add_abs_sub {m n : ℤ} (h : m ≠ n) (q : ℚ) : 1 ≤ |m - q| + |n - q| := by
  have hstep : (1 : ℚ) ≤ |(m : ℚ) - n| := by exact_mod_cast Int.one_le_abs (sub_ne_zero.2 h)
  calc (1 : ℚ) ≤ |(m : ℚ) - n| := hstep
    _ ≤ |m - q| + |q - n| := abs_sub_le _ _ _
    _ = |m - q| + |n - q| := by rw [abs_sub_comm q]

section Integers

variable (q : ℚ) (n : ℤ)

theorem abs_roundEven_sub_le_half : |roundEven q - q| ≤ 1 / 2 := by
  have h := (roundEven_eq_iff (q := q)).1 rfl
  rw [abs_le]
  split_ifs at h
  · constructor <;> linarith
  · constructor <;> linarith

theorem abs_roundEven_sub_le : |roundEven q - q| ≤ |n - q| := by
  rcases eq_or_ne n (roundEven q) with rfl | hne
  · exact le_rfl
  · have hstep := one_le_abs_sub_add_abs_sub hne q
    have hhalf := abs_roundEven_sub_le_half q
    linarith

variable {q n}

theorem roundEven_even_of_tie (h : |n - q| = |roundEven q - q|) (hne : n ≠ roundEven q) :
    roundEven q % 2 = 0 := by
  have hstep := one_le_abs_sub_add_abs_sub hne q
  by_contra hodd
  have hclose := (roundEven_eq_iff (q := q)).1 rfl
  rw [if_neg hodd] at hclose
  have hless : |roundEven q - q| < 1 / 2 := by
    rw [abs_lt]
    constructor <;> linarith
  linarith

end Integers

/-! ## The closest number of a format -/

/-- A canonical number is nearest to a magnitude: no number with a mantissa that fits is closer, and
if another one is as close its own mantissa is even. -/
structure IsNearest (f : Format) (q : ℚ) (m : ℕ) (e : ℤ) : Prop where
  canonical : Canonical f m e
  closest : ∀ (n : ℕ) (d : ℤ), n < 2 ^ f.precision → f.least ≤ d →
    |m * 2 ^ e - q| ≤ |n * 2 ^ d - q|
  even_of_tie : ∀ (n : ℕ) (d : ℤ), n < 2 ^ f.precision → f.least ≤ d →
    |n * 2 ^ d - q| = |m * 2 ^ e - q| → (n : ℚ) * 2 ^ d ≠ m * 2 ^ e → m % 2 = 0

theorem isNearest_zero (f : Format) : IsNearest f 0 0 f.least := by
  refine ⟨⟨Nat.two_pow_pos _, le_rfl, .inr rfl⟩, fun n d _ _ => ?_, fun _ _ _ _ _ _ => rfl⟩
  rw [Nat.cast_zero, zero_mul, sub_zero, abs_zero]
  exact abs_nonneg _

section Closest

variable {f : Format} {q : ℚ} {n : ℕ} {d : ℤ}

theorem abs_mul_zpow_sub (k : ℤ) (e : ℤ) (q : ℚ) :
    |k * 2 ^ e - q| = |k - q / 2 ^ e| * 2 ^ e := by
  have hpow := two_zpow_pos e
  rw [← abs_of_pos hpow, ← abs_mul, abs_of_pos hpow, sub_mul, div_mul_cancel₀ q hpow.ne']

/-- Closest among the whole numbers of units. -/
theorem abs_nearestMagnitude_sub_le (k : ℤ) :
    |nearestMagnitude f q - q| ≤ |k * 2 ^ unitExponent f q - q| := by
  rw [nearestMagnitude, abs_mul_zpow_sub, abs_mul_zpow_sub]
  exact mul_le_mul_of_nonneg_right (abs_roundEven_sub_le _ k) (two_zpow_pos _).le

/-- A number of a smaller unit is farther away. -/
theorem abs_nearestMagnitude_sub_lt (hf : 0 < f.precision) (hq : 0 < q) (hn : n < 2 ^ f.precision)
    (hd : f.least ≤ d) (hsmall : d < unitExponent f q) :
    |nearestMagnitude f q - q| < |n * 2 ^ d - q| := by
  have hunit : (f.band : ℚ) * 2 ^ unitExponent f q ≤ q := by
    have h := zpow_unit_le hq (hd.trans_lt hsmall)
    have hexponent : (f.precision : ℤ) - 1 = (f.precision - 1 : ℕ) := by omega
    rw [hexponent, add_comm, zpow_add₀ two_ne_zero, zpow_natCast] at h
    rw [band_eq]
    exact_mod_cast h
  have hbelow := magnitude_lt_band hf hn hsmall
  calc |nearestMagnitude f q - q| ≤ |((f.band : ℤ) : ℚ) * 2 ^ unitExponent f q - q| :=
        abs_nearestMagnitude_sub_le _
    _ = q - f.band * 2 ^ unitExponent f q := by
        rw [Int.cast_natCast, abs_of_nonpos (by linarith), neg_sub]
    _ < q - n * 2 ^ d := by linarith
    _ = |n * 2 ^ d - q| := by rw [abs_of_neg (by linarith), neg_sub]

theorem exists_units (h : unitExponent f q ≤ d) (n : ℕ) :
    ∃ k : ℤ, (n : ℚ) * 2 ^ d = k * 2 ^ unitExponent f q := by
  refine ⟨n * 2 ^ (d - unitExponent f q).toNat, ?_⟩
  push_cast
  rw [← zpow_natCast, Int.toNat_of_nonneg (by omega), mul_assoc, ← zpow_add₀ two_ne_zero,
    sub_add_cancel]

/-- A whole number of units that is even has an even canonical mantissa. -/
theorem Canonical.even_of_units (hf : 1 < f.precision) {m r : ℕ} {e u : ℤ} (hc : Canonical f m e)
    (hr : r ≤ 2 ^ f.precision) (hu : f.least ≤ u) (hfull : f.band ≤ r ∨ u = f.least)
    (h : (m : ℚ) * 2 ^ e = r * 2 ^ u) (heven : r % 2 = 0) : m % 2 = 0 := by
  have hprecision : 0 < f.precision := by omega
  rw [band_eq] at hfull
  rcases hr.lt_or_eq with hlt | rfl
  · obtain ⟨rfl, -⟩ := hc.unique hprecision ⟨hlt, hu, hfull⟩ h
    exact heven
  · -- the next power of two has a full mantissa and a greater exponent
    have hpow := two_pow_precision hprecision
    have hband := band_pos f
    have hnext : Canonical f f.band (u + 1) := ⟨by omega, by omega, .inl (band_eq f).ge⟩
    have hvalue := two_pow_precision_mul_zpow hprecision u
    obtain ⟨rfl, -⟩ := hc.unique hprecision hnext (h.trans hvalue)
    rw [band_eq]
    exact Nat.mod_eq_zero_of_dvd (dvd_pow_self 2 (by omega))

/-- What a magnitude is rounded to is nearest to it. -/
theorem isNearest_of_eq (hf : 1 < f.precision) (hq : 0 < q) {m : ℕ} {e : ℤ} (hc : Canonical f m e)
    (h : nearestMagnitude f q = m * 2 ^ e) : IsNearest f q m e := by
  have hprecision : 0 < f.precision := by omega
  refine ⟨hc, fun n d hn hd => ?_, fun n d hn hd htie hne => ?_⟩
  · rw [← h]
    rcases lt_or_ge d (unitExponent f q) with hsmall | hlarge
    · exact (abs_nearestMagnitude_sub_lt hprecision hq hn hd hsmall).le
    · obtain ⟨k, hk⟩ := exists_units hlarge n
      rw [hk]
      exact abs_nearestMagnitude_sub_le k
  · rw [← h] at htie hne
    have hlarge : unitExponent f q ≤ d := by
      by_contra hsmall
      exact (abs_nearestMagnitude_sub_lt hprecision hq hn hd (not_le.1 hsmall)).ne' htie
    obtain ⟨k, hk⟩ := exists_units hlarge n
    have hunit := two_zpow_pos (unitExponent f q)
    rw [hk, nearestMagnitude, abs_mul_zpow_sub, abs_mul_zpow_sub,
      mul_left_inj' hunit.ne'] at htie
    rw [hk, nearestMagnitude, Ne, mul_left_inj' hunit.ne', Int.cast_inj] at hne
    have heven := roundEven_even_of_tie htie hne
    obtain ⟨hnonneg, hmax, hfull⟩ := roundEven_unit_mem hprecision hq
    obtain ⟨r, hr⟩ := Int.eq_ofNat_of_zero_le hnonneg
    rw [nearestMagnitude, hr] at h
    rw [hr] at heven hmax hfull
    refine hc.even_of_units hf (r := r) ?_ (least_le_unitExponent f q) ?_ h.symm (by omega)
    · exact_mod_cast hmax
    · rw [band_eq]
      exact_mod_cast hfull

end Closest

end SeededArt
