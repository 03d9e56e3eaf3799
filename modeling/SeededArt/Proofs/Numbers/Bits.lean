import SeededArt.Proofs.Numbers.Packing
/-!
# Bits of finite numbers

The bits of a finite number are a sign bit and the bits of its magnitude (`HasBits`). They are what
`unpack` takes apart (`HasBits.unpack`, `exists_hasBits`) and what `Signed.ofBits` reads
(`HasBits.signed`). The bits of magnitudes with an exponent that fits are those below the bits of
infinity.
-/

namespace SeededArt

open Decimal Float.Model Float.Model.UnpackedFloat

/-- The bits of a number with a mantissa and an exponent. A full mantissa raises the biased
exponent by one. -/
def magnitudeBits (f : Decimal.Format) (m : ℕ) (e : ℤ) : ℕ := m + (e - f.least).toNat * f.band

section Bits

variable {f : Decimal.Format} {m n : ℕ} {e : ℤ}

theorem magnitudeBits_of_full (hf : 0 < f.precision) (hc : Canonical f m e) (h : f.band ≤ m) :
    magnitudeBits f m e / f.band = (e - f.least).toNat + 1 ∧
      magnitudeBits f m e % f.band = m - f.band := by
  have hlt := hc.lt
  rw [two_pow_precision hf] at hlt
  have hone : m / f.band = 1 := Nat.div_eq_of_lt_le (by omega) (by omega)
  rw [magnitudeBits, Nat.add_mul_div_right _ _ (band_pos f), Nat.add_mul_mod_self_right, hone,
    Nat.mod_eq_sub_mod h, Nat.mod_eq_of_lt (by omega)]
  exact ⟨Nat.add_comm _ _, rfl⟩

theorem magnitudeBits_of_lt (hc : Canonical f m e) (h : m < f.band) :
    e = f.least ∧ magnitudeBits f m e / f.band = 0 ∧ magnitudeBits f m e % f.band = m := by
  have hleast : e = f.least := by
    rw [band_eq] at h
    exact hc.full.resolve_left (not_le.2 h)
  rw [magnitudeBits, hleast, Int.sub_self, Int.toNat_zero, Nat.zero_mul, Nat.add_zero]
  exact ⟨rfl, Nat.div_eq_of_lt h, Nat.mod_eq_of_lt h⟩

theorem ofFields_magnitudeBits (hf : 0 < f.precision) (hspecial : 0 < f.special) (s : Sign)
    (hc : Canonical f m e) (he : e ≤ f.greatest) :
    ofFields f s (magnitudeBits f m e / f.band) (magnitudeBits f m e % f.band) =
      assemble s m e := by
  have hleast := hc.exponent_ge
  unfold Decimal.Format.greatest at he
  rcases le_or_gt f.band m with hfull | hsmall
  · obtain ⟨hbiased, hfraction⟩ := magnitudeBits_of_full hf hc hfull
    rw [hbiased, hfraction, ofFields, ← band_eq, Nat.add_sub_cancel' hfull, if_neg (by omega),
      if_neg (by omega)]
    congr 1
    omega
  · obtain ⟨rfl, hbiased, hfraction⟩ := magnitudeBits_of_lt hc hsmall
    rw [hbiased, hfraction, ofFields_least hspecial]

theorem ofBits_magnitudeBits (hf : 0 < f.precision) (hc : Canonical f m e) (he : e ≤ f.greatest) :
    Magnitude.ofBits f (magnitudeBits f m e) = .finite m e := by
  have hleast := hc.exponent_ge
  unfold Decimal.Format.greatest at he
  unfold Magnitude.ofBits
  rcases le_or_gt f.band m with hfull | hsmall
  · obtain ⟨hbiased, hfraction⟩ := magnitudeBits_of_full hf hc hfull
    rw [hbiased, hfraction]
    refine (if_neg (by omega)).trans ((if_pos (by omega)).trans ?_)
    rw [Magnitude.finite.injEq]
    omega
  · obtain ⟨rfl, hbiased, hfraction⟩ := magnitudeBits_of_lt hc hsmall
    rw [hbiased, hfraction]
    exact if_pos rfl

/-- The bits of a number are less than those of infinity if the exponent fits. -/
theorem magnitudeBits_lt_infinityBits (hf : 0 < f.precision) (hc : Canonical f m e)
    (he : e ≤ f.greatest) : magnitudeBits f m e < f.infinityBits := by
  have hlt := hc.lt
  have hleast := hc.exponent_ge
  rw [two_pow_precision hf] at hlt
  unfold Decimal.Format.greatest at he
  calc magnitudeBits f m e < ((e - f.least).toNat + 2) * f.band := by
        rw [magnitudeBits, Nat.add_mul]
        omega
    _ ≤ f.infinityBits := Nat.mul_le_mul_right f.band (by omega)

/-- An exponent that does not fit carries into infinity. -/
theorem infinityBits_le_magnitudeBits (hspecial : 1 < f.special) (hc : Canonical f m e)
    (he : f.greatest < e) : f.infinityBits ≤ magnitudeBits f m e := by
  have hleast := hc.exponent_ge
  unfold Decimal.Format.greatest at he
  have hfull : f.band ≤ m := by
    rw [band_eq]
    exact hc.full.resolve_right (by omega)
  calc f.infinityBits ≤ ((e - f.least).toNat + 1) * f.band :=
        Nat.mul_le_mul_right f.band (by omega)
    _ ≤ magnitudeBits f m e := by
        rw [magnitudeBits, Nat.add_mul]
        omega

end Bits

/-! ## Bits with a sign -/

section Sign

variable {F : Float.Model.Format} {n : ℕ}

def signOf (negative : Bool) : Sign := if negative then .negative else .positive

theorem band_ofModel (F : Float.Model.Format) :
    (Format.ofModel F).band = 2 ^ F.mantissaBitsWithoutImplicit := by
  rw [band_eq, precision_ofModel, Nat.add_sub_cancel]

theorem signBit_ofModel (F : Float.Model.Format) :
    (Format.ofModel F).signBit = 2 ^ F.exponentBits * 2 ^ F.mantissaBitsWithoutImplicit := by
  rw [Format.signBit, special_ofModel, band_ofModel]

theorem unpack_of_toNat {b : BitVec F.numBits} (negative : Bool)
    (hn : n < (Format.ofModel F).signBit)
    (hb : b.toNat = (if negative then (Format.ofModel F).signBit else 0) + n) :
    UnpackedFloat.unpack F b =
      ofFields (Format.ofModel F) (signOf negative) (n / (Format.ofModel F).band)
        (n % (Format.ofModel F).band) := by
  have hexponents := Nat.two_pow_pos F.exponentBits
  have hmantissas := Nat.two_pow_pos F.mantissaBitsWithoutImplicit
  rw [signBit_ofModel] at hn hb
  have hbits : b.toNat = n + negative.toNat * 2 ^ F.exponentBits *
      2 ^ F.mantissaBitsWithoutImplicit := by
    rw [hb]
    cases negative <;> simp [Nat.add_comm]
  have hsign : Sign.ofBitVec (unpackSign b) = signOf negative := by
    have hbit : unpackSign b = BitVec.ofBool negative := by
      apply BitVec.eq_of_toNat_eq
      rw [toNat_unpackSign, hbits, Nat.add_comm F.mantissaBitsWithoutImplicit, Nat.pow_add,
        Nat.mul_assoc, Nat.add_mul_div_right _ _ (Nat.mul_pos hexponents hmantissas),
        Nat.div_eq_of_lt hn, Nat.zero_add]
      cases negative <;> rfl
    rw [hbit]
    cases negative <;> rfl
  rw [unpack_eq, hsign, toNat_unpackExponent, toNat_unpackMantissa, hbits, band_ofModel,
    Nat.add_mul_div_right _ _ hmantissas, Nat.add_mul_mod_self_right, Nat.add_mul_mod_self_right,
    Nat.mod_eq_of_lt (Nat.div_lt_of_lt_mul (by rwa [Nat.mul_comm]))]

/-- Bits of a finite number: a sign bit, and the bits of a canonical number that fits. -/
structure HasBits (f : Decimal.Format) (bits : ℕ) (negative : Bool) (m : ℕ) (e : ℤ) : Prop where
  canonical : Canonical f m e
  le_greatest : e ≤ f.greatest
  eq : bits = (if negative then f.signBit else 0) + magnitudeBits f m e

theorem infinityBits_le_signBit (f : Decimal.Format) : f.infinityBits ≤ f.signBit :=
  Nat.mul_le_mul_right _ (Nat.le_succ _)

section HasBits

variable {f : Decimal.Format} {bits m : ℕ} {negative : Bool} {e : ℤ}

theorem HasBits.lt_signBit (h : HasBits f bits negative m e) (hf : 0 < f.precision) :
    magnitudeBits f m e < f.signBit :=
  (magnitudeBits_lt_infinityBits hf h.canonical h.le_greatest).trans_le (infinityBits_le_signBit f)

theorem HasBits.signed (h : HasBits f bits negative m e) (hf : 0 < f.precision) :
    Signed.ofBits f bits = ⟨negative, .finite m e⟩ := by
  have hlt := h.lt_signBit hf
  have hmagnitude := ofBits_magnitudeBits hf h.canonical h.le_greatest
  rw [h.eq, Signed.ofBits]
  cases negative with
  | false =>
    rw [if_neg Bool.false_ne_true, Nat.zero_add, Nat.mod_eq_of_lt hlt, hmagnitude,
      decide_eq_false (not_le.2 hlt)]
  | true =>
    rw [if_pos rfl, Nat.add_mod_left, Nat.mod_eq_of_lt hlt, hmagnitude,
      decide_eq_true (Nat.le_add_right _ _)]

theorem HasBits.unpack (hwide : 1 < F.exponentBits) {b : BitVec F.numBits}
    (h : HasBits (Format.ofModel F) b.toNat negative m e) :
    UnpackedFloat.unpack F b = assemble (signOf negative) m e := by
  have hspecial := one_lt_special hwide
  have hprecision : 0 < (Format.ofModel F).precision := Nat.lt_add_right _ one_pos
  rw [unpack_of_toNat negative (h.lt_signBit hprecision) h.eq,
    ofFields_magnitudeBits hprecision (by omega) _ h.canonical h.le_greatest]

/-- The bits of a biased exponent and a fraction. -/
theorem exists_magnitudeBits_eq (hf : 0 < f.precision) (hspecial : 1 < f.special) {n : ℕ}
    (hn : n / f.band < f.special) :
    ∃ m e, Canonical f m e ∧ e ≤ f.greatest ∧ n = magnitudeBits f m e := by
  have hpow := two_pow_precision hf
  have hfraction := Nat.mod_lt n (band_pos f)
  have hsplit := Nat.mod_add_div n f.band
  unfold Decimal.Format.greatest magnitudeBits
  rcases Nat.eq_zero_or_pos (n / f.band) with hzero | hpos
  · rw [hzero, Nat.mul_zero, Nat.add_zero] at hsplit
    refine ⟨n, f.least, ⟨by omega, le_rfl, .inr rfl⟩, by omega, ?_⟩
    rw [Int.sub_self, Int.toNat_zero, Nat.zero_mul, Nat.add_zero]
  · obtain ⟨k, hk⟩ := Nat.exists_eq_add_one_of_ne_zero hpos.ne'
    rw [hk, Nat.mul_comm, Nat.add_one_mul] at hsplit
    refine ⟨f.band + n % f.band, f.least + k, ⟨by omega, by omega, .inl ?_⟩, by omega, ?_⟩
    · rw [← band_eq]
      exact Nat.le_add_right _ _
    · have hbiased : (f.least + k - f.least).toNat = k := by omega
      rw [hbiased]
      omega

theorem exists_hasBits (hwide : 1 < F.exponentBits) {b : BitVec F.numBits}
    (hfinite : (UnpackedFloat.unpack F b).isFinite = true) :
    ∃ negative m e, HasBits (Format.ofModel F) b.toNat negative m e := by
  have hprecision : 0 < (Format.ofModel F).precision := Nat.lt_add_right _ one_pos
  have hpos : 0 < (Format.ofModel F).signBit := Nat.mul_pos (Nat.succ_pos _) (band_pos _)
  have hlt : b.toNat < 2 * (Format.ofModel F).signBit := by
    have h := b.isLt
    rwa [Nat.pow_add, Nat.pow_add, Nat.pow_one, Nat.mul_assoc, ← signBit_ofModel] at h
  have hn := Nat.mod_lt b.toNat hpos
  have hsign : b.toNat = (if decide ((Format.ofModel F).signBit ≤ b.toNat) = true then
      (Format.ofModel F).signBit else 0) + b.toNat % (Format.ofModel F).signBit := by
    by_cases hle : (Format.ofModel F).signBit ≤ b.toNat
    · rw [if_pos (decide_eq_true hle), Nat.mod_eq_sub_mod hle, Nat.mod_eq_of_lt (by omega)]
      omega
    · rw [if_neg (by simpa using hle), Nat.mod_eq_of_lt (not_le.1 hle), Nat.zero_add]
  rw [unpack_of_toNat _ hn hsign] at hfinite
  have hbiased : b.toNat % (Format.ofModel F).signBit / (Format.ofModel F).band <
      (Format.ofModel F).special := by
    refine lt_of_le_of_ne (Nat.le_of_lt_succ (Nat.div_lt_of_lt_mul ?_)) fun hspecial => ?_
    · rwa [Nat.mul_comm]
    · rw [hspecial, ofFields, if_pos rfl] at hfinite
      split at hfinite
      next => cases hfinite
      next => cases hfinite
  obtain ⟨m, e, hc, he, hbits⟩ := exists_magnitudeBits_eq hprecision (one_lt_special hwide) hbiased
  exact ⟨_, m, e, hc, he, hbits ▸ hsign⟩

end HasBits

end Sign

end SeededArt
