import SeededArt.Proofs.Numbers.Canonical
/-!
# Rounding by shifts

Doubles are rounded by shifting the mantissa to the unit of the result, one bit at a time; two
residual bits remember what was shifted out. After all shifts they say how the remainder compares
with one half (`shifted_shiftRight`), so the rounded mantissa is the rounded quotient
(`roundedMantissa_shiftRight`), and a whole rounding step is `nearestMagnitude`
(`roundWithAccuracy_eq`).
-/

namespace SeededArt

open Float.Model Float.Model.UnpackedFloat Decimal

/-- What the residual bits say after `n` shifts of a mantissa. -/
structure Shifted (m n : ℕ) (em : ExtendedMantissa) : Prop where
  mantissa_eq : em.mantissa = m / 2 ^ n
  /-- The remainder is at least one half. -/
  roundBit_iff : em.roundBit = true ↔ 2 ^ n ≤ 2 * (m % 2 ^ n)
  /-- The remainder is neither zero nor one half. -/
  stickyBit_iff : em.stickyBit = true ↔ m % 2 ^ n ≠ 0 ∧ 2 * (m % 2 ^ n) ≠ 2 ^ n

theorem shiftRight_zero (m : ℕ) :
    ExtendedMantissa.ofMantissaAndAccuracy m .exact >>> 0 = ⟨m, false, false⟩ := rfl

theorem mod_two_pow_succ (m n : ℕ) : m % 2 ^ (n + 1) = m % 2 ^ n + 2 ^ n * (m / 2 ^ n % 2) := by
  rw [Nat.pow_succ, Nat.mod_mul]

theorem Shifted.shiftRightOne {m n : ℕ} {em : ExtendedMantissa} (h : Shifted m n em) :
    Shifted m (n + 1) em.shiftRightOne := by
  obtain ⟨hm, hround, hsticky⟩ := h
  have hlt : m % 2 ^ n < 2 ^ n := Nat.mod_lt _ (Nat.two_pow_pos n)
  have hpow : 2 ^ (n + 1) = 2 * 2 ^ n := by rw [Nat.pow_succ, Nat.mul_comm]
  have hany : em.roundBit = true ∨ em.stickyBit = true ↔ m % 2 ^ n ≠ 0 := by
    rw [hround, hsticky]
    omega
  refine ⟨?_, ?_, ?_⟩
  · rw [ExtendedMantissa.shiftRightOne, hm, Nat.pow_succ, Nat.div_div_eq_div_mul]
  · rw [ExtendedMantissa.shiftRightOne, hm, mod_two_pow_succ, hpow, bne_iff_ne]
    rcases Nat.mod_two_eq_zero_or_one (m / 2 ^ n) with hbit | hbit <;> rw [hbit] <;> omega
  · rw [ExtendedMantissa.shiftRightOne, mod_two_pow_succ, hpow, Bool.or_eq_true, hany]
    rcases Nat.mod_two_eq_zero_or_one (m / 2 ^ n) with hbit | hbit <;> rw [hbit] <;> omega

theorem shifted_shiftRight (m n : ℕ) :
    Shifted m n (ExtendedMantissa.ofMantissaAndAccuracy m .exact >>> n) := by
  induction n with
  | zero =>
    rw [shiftRight_zero]
    exact ⟨(Nat.div_one m).symm, by simp [Nat.mod_one], by simp [Nat.mod_one]⟩
  | succ n ih => exact ih.shiftRightOne

theorem roundedMantissa_shiftRight (m n : ℕ) :
    (ExtendedMantissa.ofMantissaAndAccuracy m .exact >>> n).roundedMantissa =
      roundQuotient m (2 ^ n) := by
  obtain ⟨hm, hround, hsticky⟩ := shifted_shiftRight m n
  generalize ExtendedMantissa.ofMantissaAndAccuracy m .exact >>> n = em at *
  obtain ⟨mantissa, roundBit, stickyBit⟩ := em
  simp only at hm hround hsticky
  subst hm
  unfold roundQuotient
  cases roundBit with
  | false =>
    have hlow : 2 * (m % 2 ^ n) < 2 ^ n := by simpa using hround
    rw [if_pos hlow]
    cases stickyBit <;> rfl
  | true =>
    have hhigh : 2 ^ n ≤ 2 * (m % 2 ^ n) := hround.1 rfl
    rw [if_neg (not_lt.2 hhigh)]
    cases stickyBit with
    | false =>
      have htie : ¬ 2 ^ n < 2 * (m % 2 ^ n) := by
        have := Nat.two_pow_pos n
        have := mt hsticky.2 (by simp)
        omega
      rw [if_neg htie]
      rfl
    | true =>
      have hmore : 2 ^ n < 2 * (m % 2 ^ n) := by
        have := (hsticky.1 rfl).2
        omega
      rw [if_pos hmore]
      rfl

/-! ## Units -/

theorem log_mul_zpow {m : ℕ} (hm : 0 < m) (e : ℤ) :
    Int.log 2 ((m : ℚ) * 2 ^ e) = m.log2 + e := by
  have hpow := two_zpow_pos e
  have hpos : (0 : ℚ) < m * 2 ^ e := by positivity
  apply le_antisymm
  · have hlt : (m : ℚ) * 2 ^ e < ((2 : ℕ) : ℚ) ^ (m.log2 + e + 1) := by
      have h : (m : ℚ) < 2 ^ (m.log2 + 1) := by exact_mod_cast Nat.lt_log2_self
      rw [show (m.log2 + e + 1 : ℤ) = ((m.log2 + 1 : ℕ) : ℤ) + e by push_cast; ring,
        zpow_add₀ (by norm_num), zpow_natCast]
      exact mul_lt_mul_of_pos_right (by exact_mod_cast h) hpow
    have := (Int.lt_zpow_iff_log_lt (by norm_num) hpos).1 hlt
    omega
  · refine (Int.zpow_le_iff_le_log (by norm_num) hpos).1 ?_
    have h : (2 : ℚ) ^ m.log2 ≤ m := by exact_mod_cast Nat.log2_self_le hm.ne'
    rw [zpow_add₀ (by norm_num), zpow_natCast]
    exact mul_le_mul_of_nonneg_right (by exact_mod_cast h) hpow.le

theorem targetExponent_totalExponent (m : ℕ) (e : ℤ) :
    Float.Model.Format.binary64.targetExponent (totalExponent m e) =
      max (m.log2 + 1 + e - 53) (-1074) := rfl

theorem targetExponent_eq {m : ℕ} (hm : 0 < m) (e : ℤ) :
    Float.Model.Format.binary64.targetExponent (totalExponent m e) =
      unitExponent .binary64 (m * 2 ^ e) := by
  rw [unitExponent_binary64, log_mul_zpow hm, targetExponent_totalExponent]
  congr 1
  omega

theorem shiftToTargetExponent_small {m : ℕ} {e : ℤ} (hm : m < 2 ^ 53) (he : -1074 ≤ e) :
    shiftToTargetExponent .binary64 m e .exact = (⟨m, false, false⟩, e) := by
  have htarget : Float.Model.Format.binary64.targetExponent (totalExponent m e) ≤ e := by
    rcases Nat.eq_zero_or_pos m with rfl | hpos
    · rw [targetExponent_totalExponent, Nat.log2_zero]
      omega
    · rw [targetExponent_eq hpos]
      have hlt : (m : ℚ) < 2 ^ 53 := by exact_mod_cast hm
      have hpow := two_zpow_pos e
      refine unitExponent_le_of_lt (by positivity) ?_ he
      rw [zpow_add₀ (by norm_num), mul_comm]
      exact mul_lt_mul_of_pos_left (by exact_mod_cast hlt) hpow
  have hzero : (Float.Model.Format.binary64.targetExponent (totalExponent m e) - e).toNat = 0 := by
    omega
  simp only [shiftToTargetExponent, shiftToExponent, hzero, shiftRight_zero]
  simp

/-- A mantissa that was rounded up to `2 ^ 53` is shifted once. -/
theorem shiftToTargetExponent_carry {e : ℤ} (he : -1074 ≤ e) :
    shiftToTargetExponent .binary64 (2 ^ 53) e .exact = (⟨2 ^ 52, false, false⟩, e + 1) := by
  have htarget : Float.Model.Format.binary64.targetExponent (totalExponent (2 ^ 53) e) = e + 1 := by
    rw [targetExponent_totalExponent, Nat.log2_two_pow]
    omega
  have hone : (e + 1 - e).toNat = 1 := by omega
  simp only [shiftToTargetExponent, shiftToExponent, htarget, hone]
  rfl

/-! ## One rounding step -/

def signed : Sign → ℚ → ℚ
  | .negative, q => -q
  | .positive, q => q

theorem signed_zero (s : Sign) : signed s 0 = 0 := by
  cases s with
  | negative => exact neg_zero
  | positive => rfl

/-- The value of a finite number. -/
def unpackedValue : UnpackedFloat → ℚ
  | .finite s m e _ => signed s (m * 2 ^ e)
  | _ => 0

@[simp] theorem unpackedValue_zero (s : Sign) : unpackedValue (.zero s) = 0 := rfl

@[simp] theorem unpackedValue_finite (s : Sign) (m : ℕ) (e : ℤ) (hm : 0 < m) :
    unpackedValue (.finite s m e hm) = signed s (m * 2 ^ e) := rfl

/-- A zero or a canonical number, of whatever size. -/
inductive IsRounded (f : Decimal.Format) : UnpackedFloat → Prop
  | zero (s : Sign) : IsRounded f (.zero s)
  | finite (s : Sign) {m : ℕ} {e : ℤ} (hm : 0 < m) :
    Canonical f m e → IsRounded f (.finite s m e hm)

/-- Rounded to its unit, a mantissa is the rounded quotient by a power of two. -/
theorem roundEven_unit {m : ℕ} {e : ℤ} (he : e ≤ unitExponent .binary64 (m * 2 ^ e)) :
    roundEven (m * 2 ^ e / 2 ^ unitExponent .binary64 (m * 2 ^ e)) =
      roundQuotient m (2 ^ (unitExponent .binary64 (m * 2 ^ e) - e).toNat) := by
  generalize unitExponent .binary64 (m * 2 ^ e) = t at he ⊢
  have hdiv : (m * 2 ^ e / 2 ^ t : ℚ) = m / (2 ^ (t - e).toNat : ℕ) := by
    rw [mul_div_assoc, ← zpow_sub₀ (by norm_num), div_eq_mul_inv, Nat.cast_pow, Nat.cast_ofNat,
      ← zpow_natCast, ← zpow_neg, Int.toNat_of_nonneg (by omega), neg_sub]
  rw [hdiv, roundEven_div m (Nat.two_pow_pos _)]

/-- A mantissa and exponent stand for the magnitude nearest to an exact one. -/
theorem roundQuotient_mul_zpow {m : ℕ} {e : ℤ} (he : e ≤ unitExponent .binary64 (m * 2 ^ e)) :
    (roundQuotient m (2 ^ (unitExponent .binary64 (m * 2 ^ e) - e).toNat) : ℚ) *
      2 ^ unitExponent .binary64 (m * 2 ^ e) = nearestMagnitude .binary64 (m * 2 ^ e) := by
  rw [nearestMagnitude, roundEven_unit he, Int.cast_natCast]

theorem canonical_of_roundQuotient {m : ℕ} {e : ℤ} (hm : 0 < m)
    (he : e ≤ unitExponent .binary64 (m * 2 ^ e)) :
    roundQuotient m (2 ^ (unitExponent .binary64 (m * 2 ^ e) - e).toNat) ≤ 2 ^ 53 ∧
      (2 ^ 52 ≤ roundQuotient m (2 ^ (unitExponent .binary64 (m * 2 ^ e) - e).toNat) ∨
        unitExponent .binary64 (m * 2 ^ e) = -1074) := by
  have hpow := two_zpow_pos e
  have hpos : (0 : ℚ) < m * 2 ^ e := by positivity
  have hmem := (roundEven_unit_mem (f := .binary64) (by decide) hpos).2
  rw [roundEven_unit he] at hmem
  exact_mod_cast hmem

/-- A number from its parts; without a mantissa it is a zero. -/
def assemble (s : Sign) (m : ℕ) (e : ℤ) : UnpackedFloat :=
  if h : m = 0 then .zero s else .finite s m e (Nat.pos_of_ne_zero h)

theorem roundWithAccuracy_eq (s : Sign) (m : ℕ) (e : ℤ) :
    roundWithAccuracy .binary64 s m e .exact =
      assemble s
        (shiftToTargetExponent .binary64
          (shiftToTargetExponent .binary64 m e .exact).1.roundedMantissa
          (shiftToTargetExponent .binary64 m e .exact).2 .exact).1.mantissa
        (shiftToTargetExponent .binary64
          (shiftToTargetExponent .binary64 m e .exact).1.roundedMantissa
          (shiftToTargetExponent .binary64 m e .exact).2 .exact).2 := rfl

theorem assemble_spec {f : Decimal.Format} (s : Sign) {m : ℕ} {e : ℤ} (hc : Canonical f m e) :
    IsRounded f (assemble s m e) ∧ unpackedValue (assemble s m e) = signed s (m * 2 ^ e) := by
  by_cases hzero : m = 0
  · subst hzero
    have hassemble : assemble s 0 e = .zero s := dif_pos rfl
    rw [hassemble, unpackedValue_zero, Nat.cast_zero, zero_mul, signed_zero]
    exact ⟨.zero s, rfl⟩
  · unfold assemble
    rw [dif_neg hzero]
    exact ⟨.finite s _ hc, rfl⟩

/-- Rounding a mantissa at or below its unit gives the nearest magnitude. -/
theorem roundWithAccuracy_spec (s : Sign) {m : ℕ} {e : ℤ} (hm : 0 < m)
    (he : e ≤ unitExponent .binary64 (m * 2 ^ e)) :
    IsRounded .binary64 (roundWithAccuracy .binary64 s m e .exact) ∧
      unpackedValue (roundWithAccuracy .binary64 s m e .exact) =
        signed s (nearestMagnitude .binary64 (m * 2 ^ e)) := by
  have hvalue := roundQuotient_mul_zpow he
  obtain ⟨hmax, hfull⟩ := canonical_of_roundQuotient hm he
  have hmin : -1074 ≤ unitExponent .binary64 (m * 2 ^ e) := least_le_unitExponent _ _
  have hfirst : shiftToTargetExponent .binary64 m e .exact =
      (ExtendedMantissa.ofMantissaAndAccuracy m .exact >>>
        (unitExponent .binary64 (m * 2 ^ e) - e).toNat, unitExponent .binary64 (m * 2 ^ e)) := by
    rw [shiftToTargetExponent, targetExponent_eq hm, shiftToExponent]
    simp only [Prod.mk.injEq, true_and]
    omega
  rw [roundWithAccuracy_eq, hfirst]
  simp only [roundedMantissa_shiftRight]
  generalize roundQuotient m (2 ^ (unitExponent .binary64 (m * 2 ^ e) - e).toNat) = r at *
  generalize unitExponent .binary64 (m * 2 ^ e) = t at *
  rw [← hvalue]
  rcases hmax.lt_or_eq with hlt | rfl
  · rw [shiftToTargetExponent_small hlt hmin]
    exact assemble_spec s ⟨hlt, hmin, hfull⟩
  · -- rounded up to the next power of two, the mantissa is shifted once more
    have hcarry : ((2 ^ 53 : ℕ) : ℚ) * 2 ^ t = ((2 ^ 52 : ℕ) : ℚ) * 2 ^ (t + 1) := by
      rw [zpow_add₀ (by norm_num)]
      push_cast
      ring
    rw [shiftToTargetExponent_carry hmin, hcarry]
    exact assemble_spec s (canonical_binary64_iff.2 ⟨by norm_num, by omega, .inl le_rfl⟩)

end SeededArt
