import SeededArt.Proofs.Numbers.Bits
/-!
# Quotients rounded to a format

A positive quotient of natural numbers is rounded once: the exponent that is chosen for it is the
exponent of its unit (`exponentFor_eq`), and the mantissa is the nearest whole number of units
(`roundQuotient_unit`). So what is answered are the bits of the nearest magnitude, or of infinity
(`exists_nearest_eq`), and the double of a quotient is its nearest magnitude packed
(`exists_doubleOfQuotient_eq`).
-/

namespace SeededArt

open Decimal Float.Model Float.Model.UnpackedFloat

theorem raise_pos {b : ℕ} (hb : 0 < b) (x : ℤ) : 0 < raise b x := Nat.pow_pos hb

/-- A power is the quotient of its two halves, of which one is one. -/
theorem raise_eq {b : ℕ} (hb : 0 < b) (x : ℤ) : (raise b x : ℚ) = b ^ x * raise b (-x) := by
  have hne : (b : ℚ) ≠ 0 := by exact_mod_cast hb.ne'
  have hcast (y : ℤ) : (raise b y : ℚ) = (b : ℚ) ^ (y.toNat : ℤ) := by
    rw [zpow_natCast, ← Nat.cast_pow]
    rfl
  have hsplit : (x.toNat : ℤ) = x + ((-x).toNat : ℤ) := by omega
  rw [hcast, hcast, hsplit, zpow_add₀ hne]

/-! ## The exponent and the mantissa -/

section Quotient

variable {num den : ℕ}

/-- The logarithms of two numbers give the logarithm of their quotient up to one. -/
theorem log_quotient (hnum : 0 < num) (hden : 0 < den) :
    Int.log 2 (num / den : ℚ) =
      if (num / den : ℚ) < 2 ^ (num.log2 - den.log2 : ℤ) then (num.log2 - den.log2 - 1 : ℤ)
      else num.log2 - den.log2 := by
  have hdenpos : (0 : ℚ) < den := by exact_mod_cast hden
  have hpos : (0 : ℚ) < num / den := div_pos (by exact_mod_cast hnum) hdenpos
  have hnumlow : (2 : ℚ) ^ (num.log2 : ℤ) ≤ num := by
    exact_mod_cast Nat.log2_self_le hnum.ne'
  have hnumhigh : (num : ℚ) < 2 ^ (num.log2 + 1 : ℤ) := by
    exact_mod_cast Nat.lt_log2_self (n := num)
  have hdenlow : (2 : ℚ) ^ (den.log2 : ℤ) ≤ den := by
    exact_mod_cast Nat.log2_self_le hden.ne'
  have hdenhigh : (den : ℚ) < 2 ^ (den.log2 + 1 : ℤ) := by
    exact_mod_cast Nat.lt_log2_self (n := den)
  have hlow : (2 : ℚ) ^ (num.log2 - den.log2 - 1 : ℤ) ≤ num / den := by
    rw [le_div_iff₀ hdenpos]
    calc (2 : ℚ) ^ (num.log2 - den.log2 - 1 : ℤ) * den
        ≤ 2 ^ (num.log2 - den.log2 - 1 : ℤ) * 2 ^ (den.log2 + 1 : ℤ) :=
          mul_le_mul_of_nonneg_left hdenhigh.le (two_zpow_pos _).le
      _ = 2 ^ (num.log2 : ℤ) := by
          rw [← zpow_add₀ two_ne_zero]
          congr 1
          ring
      _ ≤ num := hnumlow
  have hhigh : (num / den : ℚ) < 2 ^ (num.log2 - den.log2 + 1 : ℤ) := by
    rw [div_lt_iff₀ hdenpos]
    calc (num : ℚ) < 2 ^ (num.log2 + 1 : ℤ) := hnumhigh
      _ = 2 ^ (num.log2 - den.log2 + 1 : ℤ) * 2 ^ (den.log2 : ℤ) := by
          rw [← zpow_add₀ two_ne_zero]
          congr 1
          ring
      _ ≤ 2 ^ (num.log2 - den.log2 + 1 : ℤ) * den :=
          mul_le_mul_of_nonneg_left hdenlow (two_zpow_pos _).le
  have hloglow := (Int.zpow_le_iff_le_log (b := 2) one_lt_two hpos).1 (by rwa [Nat.cast_ofNat])
  have hloghigh := (Int.lt_zpow_iff_log_lt (b := 2) one_lt_two hpos).1 (by rwa [Nat.cast_ofNat])
  have hsplit := Int.lt_zpow_iff_log_lt (b := 2) one_lt_two (x := (num.log2 - den.log2 : ℤ)) hpos
  rw [Nat.cast_ofNat] at hsplit
  split_ifs with h
  · have := hsplit.1 h
    omega
  · have := mt hsplit.2 h
    omega

/-- The exponent that is chosen for a quotient is the exponent of its unit. -/
theorem exponentFor_eq (f : Decimal.Format) (hnum : 0 < num) (hden : 0 < den) :
    f.exponentFor num den = unitExponent f (num / den) := by
  have hdenpos : (0 : ℚ) < den := by exact_mod_cast hden
  have hfull (guess : ℤ) :
      num * raise 2 (-guess) < raise 2 f.precision * (den * raise 2 guess) ↔
        (num / den : ℚ) < 2 ^ (guess + f.precision) := by
    have hfull : (raise 2 f.precision : ℚ) = 2 ^ (f.precision : ℤ) := by
      rw [zpow_natCast]
      exact Nat.cast_pow 2 f.precision
    have hneg : (0 : ℚ) < raise 2 (-guess) := by exact_mod_cast raise_pos two_pos (-guess)
    have hpow := raise_eq two_pos guess
    rw [Nat.cast_ofNat] at hpow
    have hright : (2 : ℚ) ^ (f.precision : ℤ) * (den * (2 ^ guess * raise 2 (-guess))) =
        2 ^ (guess + f.precision) * den * raise 2 (-guess) := by
      rw [zpow_add₀ two_ne_zero]
      ring
    rw [← Nat.cast_lt (α := ℚ), Nat.cast_mul, Nat.cast_mul, Nat.cast_mul, hpow, hfull, hright,
      mul_lt_mul_iff_left₀ hneg, div_lt_iff₀ hdenpos]
  unfold Decimal.Format.exponentFor unitExponent
  rw [log_quotient hnum hden, max_comm]
  simp only [hfull, sub_add_cancel]
  split_ifs <;> omega

/-- The mantissa that is chosen for a quotient is the nearest whole number of units. -/
theorem roundQuotient_unit (num : ℕ) (hden : 0 < den) (e : ℤ) :
    (roundQuotient (num * raise 2 (-e)) (den * raise 2 e) : ℤ) =
      roundEven (num / den / 2 ^ e) := by
  have hraise : (0 : ℚ) < raise 2 e := by exact_mod_cast raise_pos two_pos e
  have hpow := raise_eq two_pos (-e)
  rw [neg_neg, Nat.cast_ofNat] at hpow
  rw [← roundEven_div _ (Nat.mul_pos hden (raise_pos two_pos e))]
  congr 1
  have hdenpos : (0 : ℚ) < den := by exact_mod_cast hden
  rw [Nat.cast_mul, Nat.cast_mul, hpow, zpow_neg]
  field_simp

end Quotient

/-! ## The bits of a quotient -/

/-- The bits nearest to a quotient are those of its nearest magnitude, or of infinity where they are
less. -/
theorem exists_nearest_eq {f : Decimal.Format} (hf : 0 < f.precision) {num den : ℕ}
    (hnum : 0 < num) (hden : 0 < den) :
    ∃ m e, Canonical f m e ∧ nearestMagnitude f (num / den) = m * 2 ^ e ∧
      f.nearest num den = min (magnitudeBits f m e) f.infinityBits := by
  have hpos : (0 : ℚ) < num / den := div_pos (by exact_mod_cast hnum) (by exact_mod_cast hden)
  have hleast := least_le_unitExponent f (num / den)
  obtain ⟨-, hmax, hfull⟩ := roundEven_unit_mem (f := f) hf hpos
  have hmantissa := roundQuotient_unit num hden (unitExponent f (num / den))
  have hvalue : nearestMagnitude f (num / den) =
      roundEven (num / den / 2 ^ unitExponent f (num / den)) * 2 ^ unitExponent f (num / den) := rfl
  have hbits : f.nearest num den =
      min (magnitudeBits f (roundQuotient (num * raise 2 (-unitExponent f (num / den)))
        (den * raise 2 (unitExponent f (num / den)))) (unitExponent f (num / den)))
        f.infinityBits := by
    unfold Decimal.Format.nearest
    rw [if_neg (by omega), exponentFor_eq f hnum hden]
    rfl
  rw [hbits, hvalue]
  rw [← hmantissa] at hmax hfull ⊢
  generalize roundQuotient (num * raise 2 (-unitExponent f (num / den)))
    (den * raise 2 (unitExponent f (num / den))) = r at *
  generalize unitExponent f (num / den) = e at *
  rcases hmax.lt_or_eq with hlt | heq
  · refine ⟨r, e, ⟨by exact_mod_cast hlt, hleast, ?_⟩, by push_cast; rfl, rfl⟩
    exact_mod_cast hfull
  · -- rounded up to the next power of two, the mantissa carries into the exponent
    have hr : r = 2 ^ f.precision := by exact_mod_cast heq
    have hpow := two_pow_precision hf
    have hband := band_pos f
    refine ⟨f.band, e + 1, ⟨by omega, by omega, .inl (band_eq f).ge⟩, ?_, ?_⟩
    · rw [hr]
      exact_mod_cast two_pow_precision_mul_zpow hf e
    · have hexponent : (e + 1 - f.least).toNat = (e - f.least).toNat + 1 := by omega
      rw [hr, hpow, magnitudeBits, magnitudeBits, hexponent, Nat.add_mul]
      congr 1
      omega

/-! ## The double of a quotient -/

section Double

variable {num den m n : ℕ} {e f : ℤ}

theorem ofBits_min_magnitudeBits (hc : Canonical .binary64 m e) :
    Float.ofBits (min (magnitudeBits .binary64 m e) Format.binary64.infinityBits).toUInt64 =
      .ofModel (.pack (assemble .positive m e)) := by
  have hprecision : 0 < Decimal.Format.binary64.precision := by decide
  have hinfinity : Format.binary64.infinityBits < 2 ^ 64 := by decide
  by_cases he : e ≤ Decimal.Format.binary64.greatest
  · have hlt := magnitudeBits_lt_infinityBits hprecision hc he
    have hbits : HasBits .binary64 (magnitudeBits .binary64 m e).toUInt64.toBitVec.toNat
        false m e :=
      ⟨hc, he, (UInt64.toNat_ofNat_of_lt' (hlt.trans hinfinity)).trans (Nat.zero_add _).symm⟩
    rw [min_eq_left hlt.le]
    exact congrArg (fun u => Float.ofModel (.pack u)) (hbits.unpack (F := .binary64) (by decide))
  · -- an exponent that does not fit is packed as infinity
    have hle := infinityBits_le_magnitudeBits (by decide) hc (not_le.1 he)
    have hfull : 2 ^ 52 ≤ m := by
      rw [Format.greatest_binary64] at he
      exact (canonical_binary64_iff.1 hc).2.2.resolve_right (by omega)
    have hm : 0 < m := (Nat.two_pow_pos 52).trans_le hfull
    have hpack : Float.Model.pack (.finite .positive m e hm) = .pack (.infinity .positive) := by
      have h : UnpackedFloat.pack .binary64 (.finite .positive m e hm) =
          UnpackedFloat.pack .binary64 (.infinity .positive) := by
        rw [pack_finite (by decide), Format.ofModel_binary64, if_pos (not_le.1 he)]
        rfl
      rw [Float.Model.pack, Float.Model.pack, Float.Model.mk.injEq, h]
    rw [min_eq_right hle, assemble_of_pos _ hm, hpack]
    rfl

/-- The double of a quotient is its nearest magnitude, packed. -/
theorem exists_doubleOfQuotient_eq (hnum : 0 < num) (hden : 0 < den) :
    ∃ m e, Canonical .binary64 m e ∧ nearestMagnitude .binary64 (num / den) = m * 2 ^ e ∧
      doubleOfQuotient num den = .ofModel (.pack (assemble .positive m e)) := by
  obtain ⟨m, e, hc, hvalue, hbits⟩ := exists_nearest_eq (f := .binary64) (by decide) hnum hden
  refine ⟨m, e, hc, hvalue, ?_⟩
  rw [doubleOfQuotient, hbits, ofBits_min_magnitudeBits hc]

end Double

end SeededArt
