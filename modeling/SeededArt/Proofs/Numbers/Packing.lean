import SeededArt.Proofs.Numbers.Unpacked
/-!
# Packed numbers and their bits

The bits of a packed number have three fields: a sign, a biased exponent and a fraction
(`unpack_eq`). What they stand for is not a number, infinite, a zero or a canonical number whose
exponent is at most the greatest of the format (`isPacked_unpack`). Packing such a number and
unpacking the bits gives it back (`unpack_pack`), and a canonical number with a greater exponent
comes back infinite (`unpack_pack_overflow`).
-/

namespace SeededArt

open Float.Model Float.Model.UnpackedFloat

/-- A packed format as a precision, a least exponent and the biased exponent that is special. -/
def Decimal.Format.ofModel (F : Float.Model.Format) : Decimal.Format :=
  ⟨F.mantissaBits, F.minExponent, 2 ^ F.exponentBits - 1⟩

theorem Decimal.Format.ofModel_binary64 : ofModel .binary64 = .binary64 := rfl

/-- The exponent of the greatest finite numbers. -/
def Decimal.Format.greatest (f : Decimal.Format) : ℤ := f.least + f.special - 2

theorem Decimal.Format.greatest_binary64 : binary64.greatest = 971 := by decide

/-- The number of a sign, a biased exponent and a fraction. -/
def ofFields (f : Decimal.Format) (s : Sign) (biased fraction : ℕ) : UnpackedFloat :=
  if biased = f.special then
    if fraction = 0 then .infinity s else .notANumber
  else if biased = 0 then assemble s fraction f.least
  else assemble s (2 ^ (f.precision - 1) + fraction) (f.least + (biased - 1))

theorem assemble_of_pos (s : Sign) {m : ℕ} (hm : 0 < m) (e : ℤ) :
    assemble s m e = .finite s m e hm := dif_neg hm.ne'

theorem finite_congr {s : Sign} {m n : ℕ} {e f : ℤ} {hm : 0 < m} {hn : 0 < n} (hmn : m = n)
    (hef : e = f) : UnpackedFloat.finite s m e hm = .finite s n f hn := by
  subst hmn hef
  rfl

/-- The least biased exponent has no implicit bit. -/
theorem ofFields_least {f : Decimal.Format} (hf : 0 < f.special) (s : Sign) (fraction : ℕ) :
    ofFields f s 0 fraction = assemble s fraction f.least :=
  (if_neg hf.ne).trans (if_pos rfl)

section Spec

open Decimal.Format

variable {F : Float.Model.Format}

theorem precision_ofModel (F : Float.Model.Format) :
    (ofModel F).precision = F.mantissaBitsWithoutImplicit + 1 :=
  Nat.add_comm 1 _

theorem least_ofModel (F : Float.Model.Format) :
    (ofModel F).least = 1 - (F.exponentBias + F.mantissaBitsWithoutImplicit) := by
  have hpow := Nat.two_pow_pos (F.exponentBits - 1)
  have hbias : (F.exponentBias : ℤ) = 2 ^ (F.exponentBits - 1) - 1 := by
    rw [Float.Model.Format.exponentBias, Nat.cast_sub hpow]
    push_cast
    rfl
  show 3 - 2 ^ (F.exponentBits - 1) - ((1 + F.mantissaBitsWithoutImplicit : ℕ) : ℤ) = _
  omega

/-! ## Fields -/

section Fields

variable (b : BitVec F.numBits)

theorem toNat_unpackMantissa :
    (unpackMantissa b).toNat = b.toNat % 2 ^ F.mantissaBitsWithoutImplicit := by
  have hm := F.hm
  have hwidth : F.mantissaBitsWithoutImplicit - 1 - 0 + 1 =
      F.mantissaBitsWithoutImplicit := by omega
  rw [unpackMantissa, BitVec.toNat_cast, BitVec.extractLsb_toNat, Nat.shiftRight_zero, hwidth]

theorem toNat_unpackExponent :
    (unpackExponent b).toNat =
      b.toNat / 2 ^ F.mantissaBitsWithoutImplicit % 2 ^ F.exponentBits := by
  have he := F.he
  have hwidth : F.mantissaBitsWithoutImplicit + F.exponentBits - 1 -
      F.mantissaBitsWithoutImplicit + 1 = F.exponentBits := by omega
  rw [unpackExponent, BitVec.toNat_cast, BitVec.extractLsb_toNat, Nat.shiftRight_eq_div_pow, hwidth]

theorem toNat_unpackSign :
    (unpackSign b).toNat =
      b.toNat / 2 ^ (F.mantissaBitsWithoutImplicit + F.exponentBits) % 2 := by
  unfold unpackSign
  rw [BitVec.toNat_cast, BitVec.extractLsb_toNat, Nat.shiftRight_eq_div_pow,
    Nat.sub_self, Nat.zero_add, Nat.pow_one]

theorem unpack_eq :
    UnpackedFloat.unpack F b =
      ofFields (ofModel F) (Sign.ofBitVec (unpackSign b)) (unpackExponent b).toNat
        (unpackMantissa b).toNat := by
  have hspecial : unpackExponent b = -1#F.exponentBits ↔
      (unpackExponent b).toNat = (ofModel F).special := by
    rw [← BitVec.toNat_inj, BitVec.neg_one_eq_allOnes, BitVec.toNat_allOnes]
    rfl
  have hleast : unpackExponent b = 0#F.exponentBits ↔ (unpackExponent b).toNat = 0 :=
    BitVec.toNat_inj.symm
  have hwhole : unpackMantissa b = 0#F.mantissaBitsWithoutImplicit ↔
      (unpackMantissa b).toNat = 0 := BitVec.toNat_inj.symm
  unfold ofFields
  by_cases hinfinite : (unpackExponent b).toNat = (ofModel F).special
  · rw [if_pos hinfinite]
    refine (if_pos (hspecial.2 hinfinite)).trans ?_
    by_cases hzero : (unpackMantissa b).toNat = 0
    · rw [if_pos hzero]
      exact if_pos (hwhole.2 hzero)
    · rw [if_neg hzero]
      exact if_neg (mt hwhole.1 hzero)
  · rw [if_neg hinfinite]
    refine (if_neg (mt hspecial.1 hinfinite)).trans ?_
    by_cases hsmall : (unpackExponent b).toNat = 0
    · rw [if_pos hsmall]
      refine (if_pos (hleast.2 hsmall)).trans ?_
      by_cases hzero : (unpackMantissa b).toNat = 0
      · unfold assemble
        rw [dif_pos hzero]
        exact dif_pos (hwhole.2 hzero)
      · rw [assemble_of_pos _ (Nat.pos_of_ne_zero hzero), hsmall]
        refine (dif_neg (mt hwhole.1 hzero)).trans (finite_congr rfl ?_)
        rw [least_ofModel]
        omega
    · rw [if_neg hsmall, assemble_of_pos _ (by positivity)]
      refine (if_neg (mt hleast.1 hsmall)).trans (finite_congr ?_ ?_)
      · rw [BitVec.toNat_append, ← Nat.shiftLeft_add_eq_or_of_lt (BitVec.isLt _),
          Nat.shiftLeft_eq, precision_ofModel, Nat.add_sub_cancel]
        simp
      · rw [least_ofModel]
        omega

end Fields

theorem unpackSign_packComponents (s : Sign) (exponent : BitVec F.exponentBits)
    (mantissa : BitVec F.mantissaBitsWithoutImplicit) :
    Sign.ofBitVec (unpackSign (packComponents F s exponent mantissa)) = s := by
  have hbit : unpackSign (packComponents F s exponent mantissa) = s.toBitVec := by
    unfold unpackSign packComponents BitVec.extractLsb
    rw [BitVec.extractLsb'_append_eq_of_le (Nat.le_add_right _ _),
      BitVec.extractLsb'_append_eq_of_le (by omega)]
    apply BitVec.eq_of_toNat_eq
    simpa using s.toBitVec.isLt
  rw [hbit]
  cases s <;> rfl

theorem unpack_packComponents (s : Sign) (exponent : BitVec F.exponentBits)
    (mantissa : BitVec F.mantissaBitsWithoutImplicit) :
    UnpackedFloat.unpack F (packComponents F s exponent mantissa) =
      ofFields (ofModel F) s exponent.toNat mantissa.toNat := by
  rw [unpack_eq, unpackSign_packComponents, unpackExponent_packComponents,
    unpackMantissa_packComponents]

/-! ## What bits stand for -/

/-- What the bits of a format can stand for. -/
inductive IsPacked (f : Decimal.Format) : UnpackedFloat → Prop
  | notANumber : IsPacked f .notANumber
  | infinity (s : Sign) : IsPacked f (.infinity s)
  | zero (s : Sign) : IsPacked f (.zero s)
  | finite (s : Sign) {m : ℕ} {e : ℤ} (hm : 0 < m) : Canonical f m e → e ≤ f.greatest →
    IsPacked f (.finite s m e hm)

theorem isPacked_ofFields {f : Decimal.Format} (hf : 0 < f.precision) (hspecial : 1 < f.special)
    (s : Sign) {biased fraction : ℕ} (hb : biased ≤ f.special)
    (hfraction : fraction < 2 ^ (f.precision - 1)) : IsPacked f (ofFields f s biased fraction) := by
  have hpow := two_pow_precision hf
  rw [band_eq] at hpow
  unfold ofFields
  by_cases hinfinite : biased = f.special
  · rw [if_pos hinfinite]
    by_cases hwhole : fraction = 0
    · rw [if_pos hwhole]
      exact .infinity s
    · rw [if_neg hwhole]
      exact .notANumber
  · rw [if_neg hinfinite]
    by_cases hsmall : biased = 0
    · rw [if_pos hsmall]
      by_cases hzero : fraction = 0
      · unfold assemble
        rw [dif_pos hzero]
        exact .zero s
      · rw [assemble_of_pos s (Nat.pos_of_ne_zero hzero)]
        refine .finite s _ ⟨by omega, le_rfl, .inr rfl⟩ ?_
        unfold Decimal.Format.greatest
        omega
    · rw [if_neg hsmall, assemble_of_pos s (by omega)]
      refine .finite s _ ⟨by omega, by omega, .inl (by omega)⟩ ?_
      unfold Decimal.Format.greatest
      omega

theorem one_lt_special (hwide : 1 < F.exponentBits) : 1 < (ofModel F).special := by
  have hpow : 2 ^ 2 ≤ 2 ^ F.exponentBits := Nat.pow_le_pow_right two_pos hwide
  show 1 < 2 ^ F.exponentBits - 1
  omega

theorem isPacked_unpack (hwide : 1 < F.exponentBits) (b : BitVec F.numBits) :
    IsPacked (ofModel F) (UnpackedFloat.unpack F b) := by
  have hprecision : 0 < (ofModel F).precision := Nat.lt_add_right _ one_pos
  rw [unpack_eq]
  refine isPacked_ofFields hprecision (one_lt_special hwide) _ ?_ ?_
  · exact Nat.le_sub_one_of_lt (BitVec.isLt _)
  · rw [precision_ofModel, Nat.add_sub_cancel]
    exact BitVec.isLt _

/-! ## Packing -/

theorem special_ofModel (F : Float.Model.Format) :
    (ofModel F).special + 1 = 2 ^ F.exponentBits :=
  Nat.sub_add_cancel (Nat.two_pow_pos _)

theorem pack_finite (hwide : 1 < F.exponentBits) (s : Sign) (m : ℕ) (e : ℤ) (hm : 0 < m) :
    UnpackedFloat.pack F (.finite s m e hm) =
      if (ofModel F).greatest < e then packedInfinity F s
      else if m.log2 + 1 = (ofModel F).precision then
        packComponents F s (BitVec.ofNat _ (e - (ofModel F).least + 1).toNat)
          (BitVec.ofNat _ m)
      else packComponents F s 0#_ (BitVec.ofNat _ m) := by
  have hbiased : (e - (ofModel F).least + 1).toNat =
      (e + F.exponentBias + F.mantissaBitsWithoutImplicit).toNat := by
    rw [least_ofModel]
    omega
  have hgreatest : 2 ^ F.exponentBits ≤
      (e + F.exponentBias + F.mantissaBitsWithoutImplicit).toNat + 1 ↔
      (ofModel F).greatest < e := by
    have := one_lt_special hwide
    rw [← hbiased, ← special_ofModel, Decimal.Format.greatest]
    omega
  rw [hbiased]
  exact if_congr hgreatest rfl rfl

theorem unpack_packedInfinity (s : Sign) :
    UnpackedFloat.unpack F (packedInfinity F s) = .infinity s := by
  rw [packedInfinity, unpack_packComponents, BitVec.neg_one_eq_allOnes, BitVec.toNat_allOnes]
  exact (if_pos rfl).trans (if_pos rfl)

theorem unpack_packedNaN : UnpackedFloat.unpack F (packedNaN F) = .notANumber := by
  have hquiet : (1#F.mantissaBitsWithoutImplicit <<<
      (F.mantissaBitsWithoutImplicit - 1)).toNat ≠ 0 := by
    have hm := F.hm
    have hlt : 2 ^ (F.mantissaBitsWithoutImplicit - 1) < 2 ^ F.mantissaBitsWithoutImplicit :=
      Nat.pow_lt_pow_right one_lt_two (by omega)
    have hone : 1 < 2 ^ F.mantissaBitsWithoutImplicit := Nat.one_lt_two_pow hm.ne'
    rw [BitVec.toNat_shiftLeft, BitVec.toNat_ofNat, Nat.mod_eq_of_lt hone, Nat.one_shiftLeft,
      Nat.mod_eq_of_lt hlt]
    exact (Nat.two_pow_pos _).ne'
  refine (unpack_packComponents _ _ _).trans ?_
  rw [BitVec.neg_one_eq_allOnes, BitVec.toNat_allOnes]
  exact (if_pos rfl).trans (if_neg hquiet)

theorem unpack_pack (hwide : 1 < F.exponentBits) {x : UnpackedFloat}
    (h : IsPacked (ofModel F) x) :
    UnpackedFloat.unpack F (UnpackedFloat.pack F x) = x := by
  have hspecial := one_lt_special hwide
  cases h with
  | notANumber => exact unpack_packedNaN
  | infinity s => exact unpack_packedInfinity s
  | zero s =>
    have hzero (w : ℕ) : (0 : BitVec w).toNat = 0 := BitVec.toNat_zero
    refine (unpack_packComponents s 0 0).trans ?_
    rw [hzero, hzero, ofFields_least (by omega)]
    rfl
  | @finite s m e hm hc he =>
    obtain ⟨hlt, hge, hfull⟩ := hc
    rw [pack_finite hwide, if_neg (not_lt.2 he)]
    unfold Decimal.Format.greatest at he
    rw [precision_ofModel] at hlt hfull ⊢
    rw [Nat.add_sub_cancel] at hfull
    by_cases hnormal : 2 ^ F.mantissaBitsWithoutImplicit ≤ m
    · have hlog : m.log2 = F.mantissaBitsWithoutImplicit :=
        (Nat.log2_eq_iff hm.ne').2 ⟨hnormal, hlt⟩
      have hbiased : (BitVec.ofNat F.exponentBits (e - (ofModel F).least + 1).toNat).toNat =
          (e - (ofModel F).least + 1).toNat := by
        rw [BitVec.toNat_ofNat, Nat.mod_eq_of_lt]
        rw [← special_ofModel]
        omega
      have hfraction : (BitVec.ofNat F.mantissaBitsWithoutImplicit m).toNat =
          m - 2 ^ F.mantissaBitsWithoutImplicit := by
        rw [BitVec.toNat_ofNat, Nat.mod_eq_sub_mod hnormal, Nat.mod_eq_of_lt (by omega)]
      rw [if_pos (by omega), unpack_packComponents, hbiased, hfraction, ofFields, precision_ofModel,
        Nat.add_sub_cancel, if_neg (by omega), if_neg (by omega), Nat.add_sub_cancel' hnormal,
        assemble_of_pos s hm]
      exact finite_congr rfl (by omega)
    · have hlog : m.log2 < F.mantissaBitsWithoutImplicit :=
        (Nat.log2_lt hm.ne').2 (not_le.1 hnormal)
      have hfraction : (BitVec.ofNat F.mantissaBitsWithoutImplicit m).toNat = m := by
        rw [BitVec.toNat_ofNat, Nat.mod_eq_of_lt (not_le.1 hnormal)]
      rw [if_neg (by omega), unpack_packComponents, hfraction, BitVec.toNat_ofNat, Nat.zero_mod,
        ofFields_least (by omega), assemble_of_pos s hm]
      exact finite_congr rfl (hfull.resolve_left hnormal).symm

theorem unpack_pack_overflow (hwide : 1 < F.exponentBits) (s : Sign) {m : ℕ} {e : ℤ}
    (hm : 0 < m) (he : (ofModel F).greatest < e) :
    UnpackedFloat.unpack F (UnpackedFloat.pack F (.finite s m e hm)) = .infinity s := by
  rw [pack_finite hwide, if_pos he, unpack_packedInfinity]

end Spec

end SeededArt
