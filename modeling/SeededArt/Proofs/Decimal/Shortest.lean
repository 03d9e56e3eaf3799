import SeededArt.Proofs.Decimal.Neighbourhood
import Mathlib.Algebra.Order.Field.Power
/-!
# Shortest decimals

What `shortest` answers for a canonical number lies in the neighbourhood of the number, no decimal
there has fewer digits, and no multiple of its power of ten there is nearer to the number
(`isShortest_shortest`). The search goes down from a grid without a point in the neighbourhood to
one that is finer than half of it, and stops on the coarsest grid that has a point there
(`exists_search`). That the first grid is coarse and the last one fine enough rests on the bounds of
decimal logarithms by binary ones (`decimalLog_bounds`).
-/

namespace SeededArt.Decimal

/-! ## Decimal logarithms -/

section Logarithm

variable {N A : ℕ} {x : ℤ}

theorem zpow_mul_bounds_of_nonneg (hlow : 2 ^ N ≤ 10 ^ A) (hhigh : 10 ^ A ≤ 2 ^ (N + 1))
    (hnonneg : 0 ≤ x) (hx : x ≤ N) :
    (2 : ℚ) ^ ((x - 1) * N) ≤ 10 ^ (x * A) ∧ (10 : ℚ) ^ (x * A) ≤ 2 ^ ((x + 1) * N) := by
  have hlow' : (2 : ℚ) ^ N ≤ 10 ^ A := by exact_mod_cast hlow
  have hhigh' : (10 : ℚ) ^ A ≤ 2 ^ (N + 1) := by exact_mod_cast hhigh
  have hpow : (10 : ℚ) ^ (x * A) = (10 ^ A) ^ x := by
    rw [mul_comm, zpow_mul, zpow_natCast]
  rw [hpow]
  constructor
  · calc (2 : ℚ) ^ ((x - 1) * N) ≤ 2 ^ ((N : ℤ) * x) :=
          zpow_le_zpow_right₀ one_le_two (by linarith [Int.natCast_nonneg N])
      _ = (2 ^ N) ^ x := by rw [zpow_mul, zpow_natCast]
      _ ≤ (10 ^ A) ^ x := zpow_le_zpow_left₀ hnonneg (by positivity) hlow'
  · calc ((10 : ℚ) ^ A) ^ x ≤ (2 ^ (N + 1)) ^ x :=
          zpow_le_zpow_left₀ hnonneg (by positivity) hhigh'
      _ = 2 ^ (((N + 1 : ℕ) : ℤ) * x) := by rw [zpow_mul, zpow_natCast]
      _ ≤ 2 ^ ((x + 1) * N) :=
          zpow_le_zpow_right₀ one_le_two (by push_cast; linarith)

/-- If `A / N` is a little above the logarithm of two, then `10 ^ (x * A)` is about `2 ^ (x * N)` as
long as `x` is not greater than `N`. -/
theorem zpow_mul_bounds (hlow : 2 ^ N ≤ 10 ^ A) (hhigh : 10 ^ A ≤ 2 ^ (N + 1)) (hx : |x| ≤ N) :
    (2 : ℚ) ^ ((x - 1) * N) ≤ 10 ^ (x * A) ∧ (10 : ℚ) ^ (x * A) ≤ 2 ^ ((x + 1) * N) := by
  obtain ⟨hneg, hpos⟩ := abs_le.1 hx
  rcases le_or_gt 0 x with h | h
  · exact zpow_mul_bounds_of_nonneg hlow hhigh h hpos
  · obtain ⟨hdown, hup⟩ :=
      zpow_mul_bounds_of_nonneg (x := -x) hlow hhigh (by omega) (by omega)
    have hten := ten_zpow_pos (-x * A)
    constructor
    · have h := inv_anti₀ hten hup
      rwa [← zpow_neg, ← zpow_neg, ← neg_mul, ← neg_mul, neg_add, neg_neg, ← sub_eq_add_neg] at h
    · have h := inv_anti₀ (two_zpow_pos _) hdown
      rwa [← zpow_neg, ← zpow_neg, ← neg_mul, ← neg_mul, neg_sub, neg_neg, sub_neg_eq_add,
        add_comm 1 x] at h

theorem zpow_floor_bounds (hN : 0 < N) (hlow : 2 ^ N ≤ 10 ^ A) (hhigh : 10 ^ A ≤ 2 ^ (N + 1))
    (hx : |x| ≤ N) :
    (10 : ℚ) ^ (x * A / N) ≤ 2 ^ (x + 1) ∧ (2 : ℚ) ^ (x - 1) ≤ 10 ^ (x * A / N + 1) := by
  have hNint : (0 : ℤ) < N := by exact_mod_cast hN
  have hfloor : x * A / N * N ≤ x * A := Int.ediv_mul_le _ hNint.ne'
  have hceil : x * A ≤ (x * A / N + 1) * N := (Int.lt_ediv_add_one_mul_self _ hNint).le
  obtain ⟨hdown, hup⟩ := zpow_mul_bounds hlow hhigh hx
  have hten : (1 : ℚ) ≤ 10 := by norm_num
  constructor
  · refine (pow_le_pow_iff_left₀ (by positivity) (by positivity) hN.ne').1 ?_
    rw [← zpow_natCast, ← zpow_natCast, ← zpow_mul, ← zpow_mul]
    exact (zpow_le_zpow_right₀ hten hfloor).trans hup
  · refine (pow_le_pow_iff_left₀ (by positivity) (by positivity) hN.ne').1 ?_
    rw [← zpow_natCast, ← zpow_natCast, ← zpow_mul, ← zpow_mul]
    exact hdown.trans (zpow_le_zpow_right₀ hten hceil)

end Logarithm

/-- The decimal logarithm of two is a little less than `0.30103`. -/
theorem decimalLog_bounds {x : ℤ} (hx : |x| ≤ 100000) :
    (10 : ℚ) ^ (x * 30103 / 100000) ≤ 2 ^ (x + 1) ∧
      (2 : ℚ) ^ (x - 1) ≤ 10 ^ (x * 30103 / 100000 + 1) :=
  zpow_floor_bounds (N := 100000) (A := 30103) (by norm_num) (by decide +kernel)
    (by decide +kernel) hx

/-! ## Numbers of digits -/

theorem zpow_le_of_lt_length {n k : ℕ} (h : k < (Nat.toDigits 10 n).length) (hk : 0 < k) :
    (10 : ℚ) ^ k ≤ n := by
  have hle : ¬ (Nat.toDigits 10 n).length ≤ k := not_le.2 h
  rw [Nat.length_toDigits_le_iff (by norm_num) hk, not_lt] at hle
  exact_mod_cast hle

theorem lt_pow_length (n : ℕ) : n < 10 ^ (Nat.toDigits 10 n).length :=
  (Nat.length_toDigits_le_iff (by norm_num) Nat.length_toDigits_pos).1 le_rfl

theorem length_toDigits_mono {k n : ℕ} (h : k ≤ n) :
    (Nat.toDigits 10 k).length ≤ (Nat.toDigits 10 n).length :=
  (Nat.length_toDigits_le_iff (by norm_num) Nat.length_toDigits_pos).2
    (h.trans_lt (lt_pow_length n))

/-! ## Zeros at the end -/

theorem exists_stripZeros (fuel n : ℕ) (p : ℤ) :
    ∃ k : ℕ, n = (Scaled.stripZeros fuel ⟨n, p⟩).digits * 10 ^ k ∧
      (Scaled.stripZeros fuel ⟨n, p⟩).power = p + k := by
  induction fuel generalizing n p with
  | zero => exact ⟨0, (mul_one _).symm, (add_zero _).symm⟩
  | succ fuel ih =>
    unfold Scaled.stripZeros
    split
    next hzero =>
      obtain ⟨k, hdigits, hpower⟩ := ih (n / 10) (p + 1)
      refine ⟨k + 1, ?_, ?_⟩
      · rw [pow_succ, ← mul_assoc, ← hdigits]
        exact (Nat.div_mul_cancel (Nat.dvd_of_mod_eq_zero hzero)).symm
      · rw [hpower]
        push_cast
        ring
    next => exact ⟨0, (mul_one _).symm, (add_zero _).symm⟩

namespace Neighbourhood

/-! ## The neighbours of the value -/

variable {b : Neighbourhood}

section Grid

variable {power : ℤ}

/-- The grid point below the value. -/
def under (b : Neighbourhood) (g : Grid) : ℕ := b.value * g.scale / g.step

theorem under_mul_step_le (b : Neighbourhood) (g : Grid) : b.under g * g.step ≤ b.value * g.scale :=
  Nat.div_mul_le_self _ _

theorem lt_under_succ_mul_step (b : Neighbourhood) (power : ℤ) :
    b.value * (Grid.at power b.unit).scale <
      (b.under (.at power b.unit) + 1) * (Grid.at power b.unit).step :=
  Nat.lt_mul_of_div_lt (Nat.lt_succ_self _) (step_pos power b.unit)

theorem under_le (b : Neighbourhood) (power : ℤ) :
    (b.under (.at power b.unit) : ℚ) * 10 ^ power ≤ b.value * 2 ^ b.unit :=
  (le_mul_scale_iff _ _).1 (under_mul_step_le b _)

theorem lt_under_succ (b : Neighbourhood) (power : ℤ) :
    (b.value : ℚ) * 2 ^ b.unit < (b.under (.at power b.unit) + 1 : ℕ) * 10 ^ power := by
  rw [← not_le, ← le_mul_scale_iff, not_le]
  exact lt_under_succ_mul_step b power

/-- One of the two neighbours of the value is picked, the nearer one if both are points. -/
inductive IsPick (b : Neighbourhood) (power : ℤ) : ℕ → Prop
  | under : b.Contains (b.under (.at power b.unit) * 10 ^ power) →
      (b.Contains ((b.under (.at power b.unit) + 1 : ℕ) * 10 ^ power) →
        ((2 * b.value : ℕ) : ℚ) * 2 ^ b.unit ≤
          (2 * b.under (.at power b.unit) + 1 : ℕ) * 10 ^ power) →
      IsPick b power (b.under (.at power b.unit))
  | above : b.Contains ((b.under (.at power b.unit) + 1 : ℕ) * 10 ^ power) →
      (b.Contains (b.under (.at power b.unit) * 10 ^ power) →
        ((2 * b.under (.at power b.unit) + 1 : ℕ) : ℚ) * 10 ^ power ≤
          (2 * b.value : ℕ) * 2 ^ b.unit) →
      IsPick b power (b.under (.at power b.unit) + 1)

theorem isPick_of_pick? {t : Tie} {n : ℕ} (h : b.pick? t (.at power b.unit) = some n) :
    b.IsPick power n := by
  have hunder := under_mul_step_le b (.at power b.unit)
  have habove := lt_under_succ_mul_step b power
  have hmiddle : (2 * b.under (.at power b.unit) + 1) * (Grid.at power b.unit).step =
      b.under (.at power b.unit) * (Grid.at power b.unit).step +
        (b.under (.at power b.unit) + 1) * (Grid.at power b.unit).step := by
    ring
  have hdouble : 2 * b.value * (Grid.at power b.unit).scale =
      b.value * (Grid.at power b.unit).scale + b.value * (Grid.at power b.unit).scale := by
    ring
  unfold pick? at h
  dsimp only at h
  split at h
  next holdsUnder holdsAbove =>
    split at h
    next hnear =>
      cases h
      refine .under ((holds_iff _).1 holdsUnder) fun _ => (mul_scale_le_iff _ _).1 ?_
      unfold under at hunder habove hmiddle ⊢
      omega
    next hfar =>
      cases h
      refine .above ((holds_iff _).1 holdsAbove) fun _ => (le_mul_scale_iff _ _).1 ?_
      unfold under at hunder habove hmiddle ⊢
      omega
  next holdsUnder hnot =>
    cases h
    refine .under ((holds_iff _).1 holdsUnder) fun hc => ?_
    rw [← holds_iff] at hc
    exact absurd (hc.symm.trans hnot) (by decide)
  next hnot holdsAbove =>
    cases h
    refine .above ((holds_iff _).1 holdsAbove) fun hc => ?_
    rw [← holds_iff] at hc
    exact absurd (hc.symm.trans hnot) (by decide)
  next => cases h

theorem IsPick.contains {n : ℕ} (h : b.IsPick power n) : b.Contains (n * 10 ^ power) := by
  cases h with
  | under hn _ => exact hn
  | above hn _ => exact hn

theorem IsPick.closest {n : ℕ} (hb : b.IsAround) (h : b.IsPick power n) {d : ℕ}
    (hd : b.Contains ((d : ℚ) * 10 ^ power)) :
    |(n : ℚ) * 10 ^ power - b.value * 2 ^ b.unit| ≤
      |(d : ℚ) * 10 ^ power - b.value * 2 ^ b.unit| := by
  have hten := ten_zpow_pos power
  have hunder := under_le b power
  have habove := lt_under_succ b power
  have hmono {i j : ℕ} (hij : i ≤ j) : (i : ℚ) * 10 ^ power ≤ j * 10 ^ power :=
    mul_le_mul_of_nonneg_right (by exact_mod_cast hij) hten.le
  have hright := le_abs_self ((d : ℚ) * 10 ^ power - b.value * 2 ^ b.unit)
  have hleft := neg_le_abs ((d : ℚ) * 10 ^ power - b.value * 2 ^ b.unit)
  -- the neighbour on the side of the other point is a point too
  rcases Nat.lt_or_ge (b.under (.at power b.unit)) d with hlt | hle
  · have hside := hmono (Nat.succ_le_of_lt hlt)
    have hpoint := hb.contains_value.between hd habove.le hside
    cases h with
    | under _ hnear =>
      have hnear := hnear hpoint
      push_cast at hnear hside
      exact abs_sub_le_iff.2 ⟨by linarith, by linarith⟩
    | above _ _ => exact abs_sub_le_iff.2 ⟨by linarith, by linarith⟩
  · have hside := hmono hle
    have hpoint := hd.between hb.contains_value hside hunder
    cases h with
    | under _ _ => exact abs_sub_le_iff.2 ⟨by linarith, by linarith⟩
    | above _ hnear =>
      have hnear := hnear hpoint
      push_cast at hnear habove ⊢
      exact abs_sub_le_iff.2 ⟨by linarith, by linarith⟩

/-- Nothing is picked only where the neighbourhood has no point of the grid: any such point has a
neighbour of the value between itself and the value. -/
theorem not_contains_of_pick? {t : Tie} (hb : b.IsAround) (h : b.pick? t (.at power b.unit) = none)
    (n : ℕ) : ¬ b.Contains (n * 10 ^ power) := by
  have hten := ten_zpow_pos power
  obtain ⟨hunder, habove⟩ : ¬ b.Contains (b.under (.at power b.unit) * 10 ^ power) ∧
      ¬ b.Contains ((b.under (.at power b.unit) + 1 : ℕ) * 10 ^ power) := by
    rw [← holds_iff, ← holds_iff, Bool.not_eq_true, Bool.not_eq_true]
    unfold pick? at h
    dsimp only at h
    split at h
    next => split at h <;> cases h
    next => cases h
    next => cases h
    next hunder habove => exact ⟨hunder, habove⟩
  intro hn
  rcases Nat.lt_or_ge (b.under (.at power b.unit)) n with hlt | hle
  · refine habove (hb.contains_value.between hn (lt_under_succ b power).le ?_)
    exact mul_le_mul_of_nonneg_right (by exact_mod_cast hlt) hten.le
  · refine hunder (hn.between hb.contains_value ?_ (under_le b power))
    exact mul_le_mul_of_nonneg_right (by exact_mod_cast hle) hten.le

/-- A grid that is fine enough has a point in the neighbourhood. -/
theorem exists_pick? (t : Tie) (hb : b.IsAround) (power : ℤ)
    (hfine : (b.low : ℚ) * 2 ^ b.unit + 10 ^ power ≤ b.value * 2 ^ b.unit) :
    ∃ n, b.pick? t (.at power b.unit) = some n := by
  rw [← Option.ne_none_iff_exists']
  intro hnone
  refine not_contains_of_pick? hb hnone (b.under (.at power b.unit))
    (hb.contains_of_lt ?_ (under_le b power))
  have habove := lt_under_succ b power
  push_cast at habove
  linarith

/-! ## The search -/

/-- The search ends on the coarsest grid with a point in the neighbourhood. -/
theorem exists_search (t : Tie) (hb : b.IsAround) {fuel : ℕ} (hfuel : 0 < fuel) (power : ℤ)
    (hfine : (b.low : ℚ) * 2 ^ b.unit + 10 ^ (power - fuel + 1) ≤ b.value * 2 ^ b.unit) :
    ∃ n p, b.search t fuel power = Scaled.stripZeros 20 ⟨n, p⟩ ∧ power - fuel < p ∧
      b.IsPick p n ∧ ∀ p', p < p' → p' ≤ power → ∀ n' : ℕ, ¬ b.Contains (n' * 10 ^ p') := by
  induction fuel generalizing power with
  | zero => cases hfuel
  | succ fuel ih =>
    unfold search
    cases hpick : b.pick? t (.at power b.unit) with
    | some n =>
      exact ⟨n, power, rfl, by omega, isPick_of_pick? hpick,
        fun p' hp hle => absurd hle (by omega)⟩
    | none =>
      have hmore : 0 < fuel := by
        rw [Nat.pos_iff_ne_zero]
        rintro rfl
        obtain ⟨n, hn⟩ := exists_pick? t hb power (by simpa using hfine)
        rw [hpick] at hn
        cases hn
      have hnext : power - 1 - fuel + 1 = power - (fuel + 1 : ℕ) + 1 := by
        push_cast
        ring
      obtain ⟨n, p, hsearch, hp, hn, hnot⟩ := ih hmore (power - 1) (by rwa [hnext])
      refine ⟨n, p, hsearch, by push_cast; omega, hn, fun p' hlt hle => ?_⟩
      rcases hle.lt_or_eq with hle | rfl
      · exact hnot p' hlt (by omega)
      · exact not_contains_of_pick? hb hpick

end Grid

/-- On the coarsest grid that meets a neighbourhood, its points have as few digits as any: one with
fewer digits would be below a power of ten, which would lie between the two and be on a coarser
grid. -/
theorem length_le_of_coarsest {n : ℕ} {p : ℤ} (hn : b.Contains (n * 10 ^ p))
    (hcoarsest : ∀ p', p < p' → ∀ n' : ℕ, ¬ b.Contains (n' * 10 ^ p')) {d : ℕ} {q : ℤ}
    (hd : b.Contains (d * 10 ^ q)) :
    (Nat.toDigits 10 n).length ≤ (Nat.toDigits 10 d).length := by
  have hq : q ≤ p := by
    by_contra hlt
    exact hcoarsest q (by omega) d hd
  by_contra hlt
  generalize hlength : (Nat.toDigits 10 d).length = k at hlt
  have hk : 0 < k := hlength ▸ Nat.length_toDigits_pos
  have hten := ten_zpow_pos p
  refine hcoarsest (k + p) (by omega) 1 (hd.between hn ?_ ?_)
  · calc (d : ℚ) * 10 ^ q ≤ 10 ^ k * 10 ^ p := by
          refine mul_le_mul ?_ (zpow_le_zpow_right₀ (by norm_num) hq) (by positivity)
            (by positivity)
          rw [← hlength]
          exact_mod_cast (lt_pow_length d).le
      _ = (1 : ℕ) * 10 ^ (k + p) := by
          rw [zpow_add₀ (by norm_num), zpow_natCast, Nat.cast_one, one_mul]
  · calc ((1 : ℕ) : ℚ) * 10 ^ (k + p) = 10 ^ k * 10 ^ p := by
          rw [zpow_add₀ (by norm_num), zpow_natCast, Nat.cast_one, one_mul]
      _ ≤ n * 10 ^ p :=
          mul_le_mul_of_nonneg_right (zpow_le_of_lt_length (not_le.1 hlt) hk) hten.le

end Neighbourhood

/-! ## Shortest decimals -/

/-- A decimal of a neighbourhood with as few digits as any of its decimals, and as near to the value
as any of its multiples of the same power of ten. -/
structure IsShortest (b : Neighbourhood) (s : Scaled) : Prop where
  contains : b.Contains (s.digits * 10 ^ s.power)
  fewest : ∀ (d : ℕ) (p : ℤ), b.Contains (d * 10 ^ p) →
    (Nat.toDigits 10 s.digits).length ≤ (Nat.toDigits 10 d).length
  closest : ∀ d : ℕ, b.Contains (d * 10 ^ s.power) →
    |(s.digits : ℚ) * 10 ^ s.power - b.value * 2 ^ b.unit| ≤
      |(d : ℚ) * 10 ^ s.power - b.value * 2 ^ b.unit|

/-- What is picked on the coarsest grid is shortest, with and without zeros at its end. -/
theorem isShortest_stripZeros {b : Neighbourhood} (hb : b.IsAround) {n : ℕ} {p : ℤ}
    (hn : b.IsPick p n) (hcoarsest : ∀ p', p < p' → ∀ n' : ℕ, ¬ b.Contains (n' * 10 ^ p'))
    (fuel : ℕ) : IsShortest b (Scaled.stripZeros fuel ⟨n, p⟩) := by
  obtain ⟨k, hdigits, hpower⟩ := exists_stripZeros fuel n p
  generalize Scaled.stripZeros fuel ⟨n, p⟩ = s at hdigits hpower
  obtain rfl : n = s.digits * 10 ^ k := hdigits
  -- without zeros the decimal lies on a coarser grid, whose points all lie on the grid it is from
  have hfiner (d : ℕ) : (d : ℚ) * 10 ^ s.power = (d * 10 ^ k : ℕ) * 10 ^ p := by
    rw [hpower, zpow_add₀ (by norm_num), zpow_natCast]
    push_cast
    ring
  refine ⟨?_, fun d q hd => ?_, fun d hd => ?_⟩
  · rw [hfiner]
    exact hn.contains
  · have hten : 0 < 10 ^ k := Nat.pow_pos (by norm_num)
    have hless := length_toDigits_mono (Nat.le_mul_of_pos_right s.digits hten)
    exact hless.trans (Neighbourhood.length_le_of_coarsest hn.contains hcoarsest hd)
  · rw [hfiner] at hd
    rw [hfiner, hfiner]
    exact hn.closest hb hd

section Canonical

variable {m : ℕ} {e : ℤ}

theorem abs_log_le (hm : 0 < m) (hc : Canonical .binary64 m e) (he : e ≤ 971) :
    |(m.log2 : ℤ) + e| ≤ 100000 := by
  have hlog : m.log2 < 53 := (Nat.log2_lt hm.ne').2 hc.lt
  have hleast : -1074 ≤ e := hc.exponent_ge
  rw [abs_le]
  omega

/-- The search starts on a grid without a point below the neighbourhood's end. -/
theorem lt_of_contains_of (hsmall : |m.log2 + e| ≤ 100000) {q : ℚ}
    (h : (Neighbourhood.of .binary64 m e).Contains q) : q < 10 ^ (decimalCeiling m e + 1) := by
  have hhigh : q ≤ (4 * m + 2 : ℕ) * 2 ^ (e - 2) := by
    unfold Neighbourhood.Contains at h
    split_ifs at h
    · exact h.2
    · exact h.2.le
  have hlog : (m : ℚ) + 1 ≤ 2 ^ (m.log2 + 1) := by exact_mod_cast Nat.lt_log2_self (n := m)
  have hbound := (decimalLog_bounds hsmall).2
  have hpow := two_zpow_pos (e - 2)
  calc q ≤ (4 * m + 2 : ℕ) * 2 ^ (e - 2) := hhigh
    _ < 8 * 2 ^ m.log2 * 2 ^ (e - 2) := by
        refine mul_lt_mul_of_pos_right ?_ hpow
        rw [pow_succ] at hlog
        push_cast
        linarith
    _ = 4 * 2 ^ (m.log2 + e - 1) := by
        rw [add_sub_assoc, zpow_add₀ two_ne_zero, zpow_natCast, zpow_sub₀ two_ne_zero,
          zpow_sub₀ two_ne_zero]
        ring
    _ ≤ 4 * 10 ^ decimalCeiling m e := by
        unfold decimalCeiling
        linarith
    _ ≤ 10 ^ (decimalCeiling m e + 1) := by
        have hten := ten_zpow_pos (decimalCeiling m e)
        rw [zpow_add_one₀ (by norm_num)]
        linarith

/-- Grids that are coarser than the first one have no point in the neighbourhood. -/
theorem not_contains_of_decimalCeiling_lt (hsmall : |m.log2 + e| ≤ 100000) (hm : 0 < m) {p : ℤ}
    (hp : decimalCeiling m e < p) (n : ℕ) :
    ¬ (Neighbourhood.of .binary64 m e).Contains (n * 10 ^ p) := by
  intro hn
  have hone : (1 : ℚ) ≤ n := by
    exact_mod_cast (Neighbourhood.isAround_of hm .binary64 e).digits_pos hn
  have hfar : (10 : ℚ) ^ (decimalCeiling m e + 1) ≤ 10 ^ p :=
    zpow_le_zpow_right₀ (by norm_num) (by omega)
  have hnear := lt_of_contains_of hsmall hn
  have hmore := le_mul_of_one_le_left (ten_zpow_pos p).le hone
  linarith

/-- The last grid that the search tries is finer than the narrow half of the neighbourhood. -/
theorem zpow_decimalCeiling_le (hm : m < 2 ^ 53) (hpos : 0 < m) (hsmall : |m.log2 + e| ≤ 100000) :
    (10 : ℚ) ^ (decimalCeiling m e - (25 : ℕ) + 1) ≤ 2 ^ (e - 2) := by
  have hlog : m.log2 ≤ 52 := by
    have := (Nat.log2_lt hpos.ne').2 hm
    omega
  have hbound := (decimalLog_bounds hsmall).1
  have hsplit : decimalCeiling m e - (25 : ℕ) + 1 =
      (m.log2 + e) * 30103 / 100000 - (23 : ℕ) := by
    unfold decimalCeiling
    push_cast
    ring
  rw [hsplit, zpow_sub₀ (by norm_num), zpow_natCast, div_le_iff₀ (by positivity)]
  calc (10 : ℚ) ^ ((m.log2 + e) * 30103 / 100000) ≤ 2 ^ (m.log2 + e + 1) := hbound
    _ ≤ 2 ^ (e - 2 + (55 : ℕ)) := zpow_le_zpow_right₀ one_le_two (by push_cast; omega)
    _ = 2 ^ (e - 2) * 2 ^ 55 := by rw [zpow_add₀ two_ne_zero, zpow_natCast]
    _ ≤ 2 ^ (e - 2) * 10 ^ 23 := by
        have := two_zpow_pos (e - 2)
        gcongr
        norm_num

/-- What is written for a canonical number is a shortest decimal of its neighbourhood, with a power
of ten in reach of the search. -/
theorem isShortest_shortest (t : Tie) (hm : 0 < m) (hc : Canonical .binary64 m e) (he : e ≤ 971) :
    IsShortest (.of .binary64 m e) (shortest .binary64 t m e) ∧
      decimalCeiling m e - 25 < (shortest .binary64 t m e).power := by
  have hsmall := abs_log_le hm hc he
  have hb := Neighbourhood.isAround_of hm .binary64 e
  have hfine : ((Neighbourhood.of .binary64 m e).low : ℚ) * 2 ^ (e - 2) +
      10 ^ (decimalCeiling m e - (25 : ℕ) + 1) ≤
        (Neighbourhood.of .binary64 m e).value * 2 ^ (e - 2) := by
    have hgap : ((Neighbourhood.of .binary64 m e).low : ℚ) + 1 ≤
        (Neighbourhood.of .binary64 m e).value := by
      exact_mod_cast hb.low_lt
    have hstep := mul_le_mul_of_nonneg_right hgap (two_zpow_pos (e - 2)).le
    have := zpow_decimalCeiling_le hc.lt hm hsmall
    linarith
  obtain ⟨n, p, hsearch, hp, hn, hnot⟩ :=
    Neighbourhood.exists_search t hb (by norm_num) (decimalCeiling m e) hfine
  have hcoarsest (p' : ℤ) (hlt : p < p') (n' : ℕ) :
      ¬ (Neighbourhood.of .binary64 m e).Contains (n' * 10 ^ p') := by
    by_cases hle : p' ≤ decimalCeiling m e
    · exact hnot p' hlt hle n'
    · exact not_contains_of_decimalCeiling_lt hsmall hm (not_le.1 hle) n'
  have hshortest : shortest .binary64 t m e = Scaled.stripZeros 20 ⟨n, p⟩ := hsearch
  obtain ⟨k, -, hpower⟩ := exists_stripZeros 20 n p
  rw [hshortest]
  exact ⟨isShortest_stripZeros hb hn hcoarsest 20, by push_cast at hp; omega⟩

end Canonical

end SeededArt.Decimal
