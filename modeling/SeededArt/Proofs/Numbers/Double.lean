import SeededArt.Proofs.Numbers.Quotient
/-!
# Doubles are rounded arithmetic

A finite double stands for the value of its unpacked bits, and every sum, difference and product is
the exact result rounded by `nearest`, or infinite where that is beyond all finite doubles
(`rounds_pack`). So whatever holds of a `RoundedArithmetic` holds of doubles.
-/

namespace SeededArt

open Float.Model Float.Model.UnpackedFloat Arithmetic SeededArt.Valuation

instance : Valuation Float where
  value x := unpackedValue x.toModel.unpack
  IsInfinite x := ∃ s, x.toModel.unpack = .infinity s
  round := nearest

/-! ## Finite doubles -/

section Finite

variable {x : Float}

theorem isFinite_eq (x : Float) : isFinite x = x.toModel.unpack.isFinite := rfl

theorem isPacked_double (x : Float) : IsPacked .binary64 x.toModel.unpack :=
  isPacked_unpack (F := .binary64) (by decide) _

theorem unpack_pack_double {u : UnpackedFloat} (hu : IsPacked .binary64 u) :
    (Float.Model.pack u).unpack = u :=
  unpack_pack (F := .binary64) (by decide) hu

theorem isRounded_of_finite (h : isFinite x = true) : IsRounded .binary64 x.toModel.unpack := by
  rw [isFinite_eq] at h
  generalize hu : x.toModel.unpack = u at h
  have hdouble : IsPacked .binary64 u := hu ▸ isPacked_double x
  cases hdouble with
  | notANumber => exact absurd h Bool.false_ne_true
  | infinity s => exact absurd h Bool.false_ne_true
  | zero s => exact .zero s
  | finite s hm hc he => exact .finite s hm hc

theorem abs_value_lt (h : isFinite x = true) : |value x| < 2 ^ (1024 : ℤ) := by
  show |unpackedValue x.toModel.unpack| < 2 ^ 1024
  have hrounded := isRounded_of_finite h
  have hdouble := isPacked_double x
  generalize x.toModel.unpack = u at hrounded hdouble
  cases hdouble with
  | notANumber => cases hrounded
  | infinity s => cases hrounded
  | zero s => rw [unpackedValue_zero, abs_zero]; exact two_zpow_pos _
  | @finite s m e hm hc he =>
    rw [Decimal.Format.greatest_binary64] at he
    rw [unpackedValue_finite, abs_signed, abs_of_pos (magnitude_pos hm e)]
    have hmantissa : (m : ℚ) < 2 ^ (53 : ℤ) := by exact_mod_cast hc.lt
    calc (m : ℚ) * 2 ^ e < 2 ^ (53 : ℤ) * 2 ^ e :=
          mul_lt_mul_of_pos_right hmantissa (two_zpow_pos e)
      _ = 2 ^ (53 + e) := (zpow_add₀ two_ne_zero _ _).symm
      _ ≤ 2 ^ (1024 : ℤ) := zpow_le_zpow_right₀ one_le_two (by omega)

end Finite

/-! ## Rounded results -/

theorem finite_of_unpack_eq {x : Float} {u : UnpackedFloat} (h : x.toModel.unpack = u)
    (hu : IsRounded .binary64 u) : isFinite x = true ∧ value x = unpackedValue u := by
  refine ⟨?_, congrArg unpackedValue h⟩
  rw [isFinite_eq, h]
  cases hu with
  | zero => rfl
  | finite => rfl

theorem finite_of_canonical {x : Float} {m : ℕ} {e : ℤ} (hm : 0 < m) (hc : Canonical .binary64 m e)
    (h : x.toModel.unpack = .finite .positive m e hm) : isFinite x = true ∧ value x = m * 2 ^ e :=
  finite_of_unpack_eq h (.finite .positive hm hc)

/-- A rounded number that is packed is a double rounded to the same result. -/
theorem rounds_pack {q : ℚ} {u : UnpackedFloat} (h : RoundsTo q u) :
    Rounds q (Float.ofModel (Float.Model.pack u)) := by
  obtain ⟨hrounded, hvalue⟩ := h
  have hdouble (hu : IsPacked .binary64 u) : Rounds q (Float.ofModel (Float.Model.pack u)) := by
    obtain ⟨hfinite, hv⟩ :=
      finite_of_unpack_eq (x := .ofModel (.pack u)) (unpack_pack_double hu) hrounded
    exact .inl ⟨hfinite, hv.trans hvalue⟩
  cases hrounded with
  | zero s => exact hdouble (.zero s)
  | @finite s m e hm hc =>
    by_cases he : e ≤ Decimal.Format.binary64.greatest
    · exact hdouble (.finite s hm hc he)
    · -- the exponent does not fit, and the value is beyond all finite doubles
      refine .inr ⟨⟨s, unpack_pack_overflow (by decide) s hm (not_le.1 he)⟩, ?_⟩
      intro y hy
      show |value y| < |nearest q|
      rw [Decimal.Format.greatest_binary64] at he
      rw [← hvalue, unpackedValue_finite, abs_signed, abs_of_pos (magnitude_pos hm e)]
      calc |value y| < 2 ^ (1024 : ℤ) := abs_value_lt hy
        _ ≤ m * 2 ^ e :=
          not_lt.1 fun hless => he (hc.exponent_le (by decide) (by decide) hless)

/-! ## Quotients -/

/-- The double of a quotient is the quotient rounded. -/
theorem doubleOfQuotient_rounds {num den : ℕ} (hnum : 0 < num) (hden : 0 < den) :
    Rounds (num / den) (Decimal.doubleOfQuotient num den) := by
  have hpos : (0 : ℚ) < num / den := div_pos (by exact_mod_cast hnum) (by exact_mod_cast hden)
  obtain ⟨m, e, hc, hvalue, heq⟩ := exists_doubleOfQuotient_eq hnum hden
  obtain ⟨hrounded, hassemble⟩ := assemble_spec .positive hc
  rw [heq]
  refine rounds_pack ⟨hrounded, ?_⟩
  rw [hassemble, nearest_of_pos hpos, hvalue]
  rfl

theorem one_value : isFinite (1.0 : Float) = true ∧ value (1.0 : Float) = 1 := by
  obtain ⟨hfinite, hv⟩ := finite_of_canonical (x := (1.0 : Float)) (m := 2 ^ 52) (e := -52)
    (by decide) ⟨by decide, by decide, .inl le_rfl⟩ rfl
  exact ⟨hfinite, hv.trans (by norm_num)⟩

/-- The quotient of a word and `2 ^ 32` is exact. -/
theorem fraction_value (k : UInt32) :
    isFinite (fraction k : Float) = true ∧ value (fraction k : Float) = k.toNat / 2 ^ 32 := by
  have hlt : k.toNat < 2 ^ 32 := k.toBitVec.isLt
  have heq : (fraction k : Float) = Decimal.doubleOfQuotient k.toNat (2 ^ 32) := rfl
  rcases Nat.eq_zero_or_pos k.toNat with hzero | hpos
  · have hunpack : (fraction k : Float).toModel.unpack = .zero .positive := by
      have hbits : Decimal.Format.binary64.nearest 0 (2 ^ 32) = 0 := if_pos (.inl rfl)
      rw [heq, hzero, Decimal.doubleOfQuotient, hbits]
      rfl
    rw [hzero, Nat.cast_zero, zero_div]
    exact finite_of_unpack_eq hunpack (.zero .positive)
  · have hexact : nearest (k.toNat / 2 ^ 32) = k.toNat / 2 ^ 32 := by
      refine nearest_representable ⟨k.toNat, -32, ?_, by norm_num, by norm_num [div_eq_mul_inv]⟩
      rw [abs_of_nonneg (by omega)]
      omega
    have hrounds := doubleOfQuotient_rounds hpos (Nat.two_pow_pos 32)
    rw [← heq, Nat.cast_pow, Nat.cast_ofNat] at hrounds
    rcases hrounds with ⟨hfinite, hv⟩ | ⟨-, hfar⟩
    · exact ⟨hfinite, hv.trans hexact⟩
    · -- one is a greater double, so the quotient is not beyond all doubles
      have hone : |(k.toNat / 2 ^ 32 : ℚ)| < 1 := by
        rw [abs_of_nonneg (by positivity), div_lt_one (by positivity)]
        exact_mod_cast hlt
      have h : |value (1.0 : Float)| < |nearest (k.toNat / 2 ^ 32)| := hfar 1.0 one_value.1
      rw [one_value.2, hexact, abs_one] at h
      exact absurd h (not_lt.2 hone.le)

/-! ## Infinite doubles and magnitudes -/

section Infinite

variable {y : UnpackedFloat} (s : Sign)

theorem infinity_add (hy : IsRounded .binary64 y) :
    UnpackedFloat.add .binary64 (.infinity s) y = .infinity s := by
  cases hy with
  | zero => rfl
  | finite => rfl

theorem infinity_sub (hy : IsRounded .binary64 y) :
    UnpackedFloat.sub .binary64 (.infinity s) y = .infinity s := by
  cases hy with
  | zero => rfl
  | finite => rfl

theorem lt_infinity (hy : IsRounded .binary64 y) : y.lt (.infinity .positive) = true := by
  cases hy with
  | zero => rfl
  | finite => rfl

theorem IsRounded.abs (hy : IsRounded .binary64 y) :
    IsRounded .binary64 y.abs ∧ unpackedValue y.abs = |unpackedValue y| := by
  cases hy with
  | zero t => exact ⟨.zero .positive, abs_zero.symm⟩
  | @finite t m e hm hc =>
    refine ⟨.finite .positive hm hc, ?_⟩
    rw [unpackedValue_finite, abs_signed, abs_of_pos (magnitude_pos hm e)]
    rfl

theorem IsPacked.abs (hy : IsPacked .binary64 y) : IsPacked .binary64 y.abs := by
  cases hy with
  | notANumber => exact .notANumber
  | infinity t => exact .infinity .positive
  | zero t => exact .zero .positive
  | finite t hm hc he => exact .finite .positive hm hc he

end Infinite

theorem less_eq (x y : Float) : less x y = x.toModel.unpack.lt y.toModel.unpack := by
  rw [Bool.eq_iff_iff]
  show decide (x < y) = true ↔ _
  rw [decide_eq_true_iff]
  exact decide_eq_true_iff

theorem unpack_magnitude (x : Float) : (magnitude x).toModel.unpack = x.toModel.unpack.abs :=
  unpack_pack_double (isPacked_double x).abs

/-! ## Decimal constants -/

theorem log_tolerance : Int.log 2 (1 / 10 ^ 9 : ℚ) = -30 := by
  have hpos : (0 : ℚ) < 1 / 10 ^ 9 := by norm_num
  have hlow : -30 ≤ Int.log 2 (1 / 10 ^ 9 : ℚ) :=
    (Int.zpow_le_iff_le_log (by norm_num) hpos).1 (by norm_num)
  have hhigh : Int.log 2 (1 / 10 ^ 9 : ℚ) < -29 :=
    (Int.lt_zpow_iff_log_lt (by norm_num) hpos).1 (by norm_num)
  omega

theorem nearest_tolerance : nearest (1 / 10 ^ 9) = 4835703278458517 * 2 ^ (-82 : ℤ) := by
  have hunit : unitExponent .binary64 (1 / 10 ^ 9) = -82 := by
    rw [unitExponent_binary64, log_tolerance]
    rfl
  have hscaled : (1 / 10 ^ 9 / 2 ^ (-82 : ℤ) : ℚ) = (2 ^ 82 : ℕ) / (10 ^ 9 : ℕ) := by norm_num
  have hround : Decimal.roundQuotient (2 ^ 82) (10 ^ 9) = 4835703278458517 := rfl
  rw [nearest_of_pos (by norm_num), nearestMagnitude, hunit, hscaled, roundEven_div _ (by norm_num),
    hround]
  norm_num

/-! ## The instance -/

instance : RoundedArithmetic Float where
  round_mono := nearest_mono
  round_value _ hx := (isRounded_of_finite hx).nearest_value
  round_representable _ := nearest_representable
  add_rounds _ _ hx hy :=
    rounds_pack (add_roundsTo (isRounded_of_finite hx) (isRounded_of_finite hy))
  sub_rounds _ _ hx hy :=
    rounds_pack (sub_roundsTo (isRounded_of_finite hx) (isRounded_of_finite hy))
  mul_rounds _ _ hx hy :=
    rounds_pack (mul_roundsTo (isRounded_of_finite hx) (isRounded_of_finite hy))
  not_finite_of_infinite x hx := by
    obtain ⟨s, hs⟩ := hx
    rw [isFinite_eq, hs]
    rfl
  add_infinite x y hx hy := by
    obtain ⟨s, hs⟩ := hx
    refine ⟨s, ?_⟩
    show UnpackedFloat.unpack .binary64 (UnpackedFloat.pack .binary64
      (UnpackedFloat.add .binary64 x.toModel.unpack y.toModel.unpack)) = _
    rw [hs, infinity_add s (isRounded_of_finite hy)]
    exact unpack_packedInfinity s
  sub_infinite x y hx hy := by
    obtain ⟨s, hs⟩ := hx
    refine ⟨s, ?_⟩
    show UnpackedFloat.unpack .binary64 (UnpackedFloat.pack .binary64
      (UnpackedFloat.sub .binary64 x.toModel.unpack y.toModel.unpack)) = _
    rw [hs, infinity_sub s (isRounded_of_finite hy)]
    exact unpack_packedInfinity s
  less_iff x y hx hy := by
    rw [less_eq]
    exact lt_iff (isRounded_of_finite hx) (isRounded_of_finite hy)
  less_magnitude_of_infinite x y hy hx := by
    obtain ⟨s, hs⟩ := hy
    rw [less_eq, unpack_magnitude, hs]
    exact lt_infinity (isRounded_of_finite hx)
  magnitude_finite x hx := by
    obtain ⟨habs, hvalue⟩ := (isRounded_of_finite hx).abs
    obtain ⟨hfinite, hv⟩ := finite_of_unpack_eq (unpack_magnitude x) habs
    exact ⟨hfinite, hv.trans hvalue⟩
  emptySum_finite := finite_of_unpack_eq (u := .zero .negative) rfl (.zero _)
  zero_finite := finite_of_unpack_eq (u := .zero .positive) rfl (.zero _)
  half_finite := by
    obtain ⟨hfinite, hv⟩ := finite_of_canonical (x := (0.5 : Float)) (m := 2 ^ 52) (e := -53)
      (by decide) ⟨by decide, by decide, .inl le_rfl⟩ rfl
    exact ⟨hfinite, hv.trans (by norm_num)⟩
  one_finite := one_value
  tolerance_finite := by
    obtain ⟨hfinite, hv⟩ := finite_of_canonical (x := (1e-9 : Float)) (m := 4835703278458517)
      (e := -82) (by decide) ⟨by decide, by decide, .inl (by decide)⟩ rfl
    exact ⟨hfinite, hv.trans nearest_tolerance.symm⟩
  fraction_finite := fraction_value

end SeededArt
