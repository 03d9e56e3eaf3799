import SeededArt.Proofs.Decimal.Conversion
/-!
# Decimals as singles

A decimal is read as the single nearest to it (`isNearestSingle_toFloat32`): no finite single is
closer, and if two are equally close the mantissa of the one that is read is even. A single of the
other sign is never closer than zero.
-/

namespace SeededArt

open Decimal Float.Model Float.Model.UnpackedFloat

/-- The value of a finite single. -/
def singleValue (x : Float32) : ℚ := unpackedValue x.toModel.unpack

/-- The sign of a number, also of a zero. -/
def unpackedSign : UnpackedFloat → Option Sign
  | .infinity s | .zero s | .finite s _ _ _ => some s
  | .notANumber => none

/-- The mantissa of a finite number. -/
def unpackedMantissa : UnpackedFloat → ℕ
  | .finite _ m _ _ => m
  | _ => 0

/-- A single is nearest to a signed number: it is finite and has the sign, no finite single is
closer, and if another one is as close its own mantissa is even. -/
structure IsNearestSingle (s : Sign) (q : ℚ) (x : Float32) : Prop where
  isFinite : x.isFinite = true
  sign_eq : unpackedSign x.toModel.unpack = some s
  closest : ∀ y : Float32, y.isFinite = true → |singleValue x - q| ≤ |singleValue y - q|
  even_of_tie : ∀ y : Float32, y.isFinite = true → |singleValue y - q| = |singleValue x - q| →
    singleValue y ≠ singleValue x → unpackedMantissa x.toModel.unpack % 2 = 0

section Nearest

variable {s : Sign} {m : ℕ} {e : ℤ} {q : ℚ} {x y : Float32}

theorem signed_sub_signed (s : Sign) (p q : ℚ) : |signed s p - signed s q| = |p - q| := by
  cases s with
  | negative => rw [signed, signed, neg_sub_neg, abs_sub_comm]
  | positive => rfl

theorem signed_sub_of_ne {t : Sign} {p : ℚ} (hne : t ≠ s) (hp : 0 ≤ p) (hq : 0 ≤ q) :
    |signed t p - signed s q| = p + q := by
  cases t with
  | negative =>
    cases s with
    | negative => exact absurd rfl hne
    | positive =>
      rw [signed, signed, abs_of_nonpos (by linarith), neg_sub, sub_neg_eq_add, add_comm]
  | positive =>
    cases s with
    | negative => rw [signed, signed, sub_neg_eq_add, abs_of_nonneg (by linarith)]
    | positive => exact absurd rfl hne

theorem assemble_parts (s : Sign) (m : ℕ) (e : ℤ) :
    (assemble s m e).isFinite = true ∧ unpackedSign (assemble s m e) = some s ∧
      unpackedMantissa (assemble s m e) = m := by
  rcases Nat.eq_zero_or_pos m with rfl | hm
  · exact ⟨rfl, rfl, rfl⟩
  · rw [assemble_of_pos s hm]
    exact ⟨rfl, rfl, rfl⟩

theorem unpackedValue_assemble (s : Sign) (m : ℕ) (e : ℤ) :
    unpackedValue (assemble s m e) = signed s (m * 2 ^ e) := by
  rcases Nat.eq_zero_or_pos m with rfl | hm
  · rw [Nat.cast_zero, zero_mul, signed_zero]
    rfl
  · rw [assemble_of_pos s hm, unpackedValue_finite]

/-- Of the right sign there is a number that is at least as close as any given single. -/
theorem exists_of_sign (hq : 0 ≤ q) (s : Sign) (hy : y.isFinite = true) :
    ∃ (n : ℕ) (d : ℤ), n < 2 ^ 24 ∧ -149 ≤ d ∧
      |n * 2 ^ d - q| ≤ |singleValue y - signed s q| ∧
      (|n * 2 ^ d - q| = |singleValue y - signed s q| → singleValue y = signed s (n * 2 ^ d)) := by
  obtain ⟨negative, n, d, hbits⟩ := exists_hasBits (F := .binary32) (by decide) hy
  have hvalue : singleValue y = signed (signOf negative) (n * 2 ^ d) :=
    (congrArg unpackedValue (hbits.unpack (F := .binary32) (by decide))).trans
      (unpackedValue_assemble _ n d)
  rw [hvalue]
  have hnonneg : (0 : ℚ) ≤ n * 2 ^ d := mul_nonneg (Nat.cast_nonneg n) (two_zpow_pos d).le
  by_cases hsign : signOf negative = s
  · rw [hsign, signed_sub_signed]
    exact ⟨n, d, hbits.canonical.lt, hbits.canonical.exponent_ge, le_rfl, fun _ => rfl⟩
  · -- a number of the other sign is not closer than zero
    have hzero : |((0 : ℕ) : ℚ) * 2 ^ (-149 : ℤ) - q| = q := by
      rw [Nat.cast_zero, zero_mul, zero_sub, abs_neg, abs_of_nonneg hq]
    refine ⟨0, -149, by norm_num, le_rfl, ?_, fun htie => ?_⟩
    · rw [hzero, signed_sub_of_ne hsign hnonneg hq]
      exact le_add_of_nonneg_left hnonneg
    · rw [hzero, signed_sub_of_ne hsign hnonneg hq, right_eq_add] at htie
      rw [htie, signed_zero, Nat.cast_zero, zero_mul, signed_zero]

theorem isNearestSingle_of_unpack (hq : 0 ≤ q) (hx : x.toModel.unpack = assemble s m e)
    (h : IsNearest .binary32 q m e) : IsNearestSingle s (signed s q) x := by
  obtain ⟨hfinite, hsign, hmantissa⟩ := assemble_parts s m e
  have hvalue : singleValue x = signed s (m * 2 ^ e) := by
    rw [singleValue, hx, unpackedValue_assemble]
  refine ⟨?_, ?_, fun y hy => ?_, fun y hy htie hne => ?_⟩
  · show x.toModel.unpack.isFinite = true
    rw [hx, hfinite]
  · rw [hx, hsign]
  · obtain ⟨n, d, hn, hd, hle, -⟩ := exists_of_sign hq s hy
    rw [hvalue, signed_sub_signed]
    exact (h.closest n d hn hd).trans hle
  · obtain ⟨n, d, hn, hd, hle, heq⟩ := exists_of_sign hq s hy
    rw [hvalue, signed_sub_signed] at htie
    have hclosest := h.closest n d hn hd
    have hsame := heq (le_antisymm hle (htie.trans_le hclosest))
    rw [hx, hmantissa]
    refine h.even_of_tie n d hn hd (le_antisymm (hle.trans htie.le) hclosest) fun hvalues => hne ?_
    rw [hsame, hvalue, hvalues]

end Nearest

/-! ## Decimals -/

section Decimals

variable {d : ℕ} {p : ℤ}

/-- A decimal that is not far outside the range of singles, and not rounded beyond the greatest of
them, has the bits of a nearest number. -/
theorem exists_isNearest_bits (hd : d = 0 ∨ -400 ≤ p + Numeral.digitCount d)
    (hhigh : p + Numeral.digitCount d ≤ 400)
    (hfits : nearestMagnitude .binary32 (d * 10 ^ p) < 2 ^ (128 : ℤ)) :
    ∃ m e, IsNearest .binary32 (d * 10 ^ p) m e ∧ e ≤ Decimal.Format.binary32.greatest ∧
      Numeral.nearest .binary32 d p = magnitudeBits .binary32 m e := by
  have hgreatest : Decimal.Format.binary32.greatest = 104 := by decide
  rcases Nat.eq_zero_or_pos d with rfl | hpos
  · refine ⟨0, -149, ?_, by rw [hgreatest]; norm_num, rfl⟩
    rw [Nat.cast_zero, zero_mul]
    exact isNearest_zero .binary32
  · have hnum : 0 < d * raise 10 p := Nat.mul_pos hpos (raise_pos (by norm_num) p)
    have hden : 0 < raise 10 (-p) := raise_pos (by norm_num) (-p)
    have hdecimal : (0 : ℚ) < d * 10 ^ p := by positivity
    obtain ⟨m, e, hc, hvalue, hbits⟩ := exists_nearest_eq (f := .binary32) (by decide) hnum hden
    rw [cast_mul_raise] at hvalue
    have he : e ≤ Decimal.Format.binary32.greatest := by
      rw [hvalue] at hfits
      rw [hgreatest]
      exact hc.exponent_le (by decide) (by decide) hfits
    refine ⟨m, e, isNearest_of_eq (by decide) hdecimal hc hvalue, he, ?_⟩
    rw [nearest_of_inRange _ hpos (by omega) hhigh, hbits]
    exact min_eq_left (magnitudeBits_lt_infinityBits (by decide) hc he).le

theorem unpack_ofBits_single (b : UInt32) :
    (Float32.ofBits b).toModel.unpack = UnpackedFloat.unpack .binary32 b.toBitVec :=
  unpack_pack (F := .binary32) (by decide) (isPacked_unpack (by decide) _)

/-- A decimal is read as the single nearest to it. -/
theorem isNearestSingle_toFloat32 (negative : Bool) (hd : d = 0 ∨ -400 ≤ p + Numeral.digitCount d)
    (hhigh : p + Numeral.digitCount d ≤ 400)
    (hfits : nearestMagnitude .binary32 (d * 10 ^ p) < 2 ^ (128 : ℤ)) :
    IsNearestSingle (signOf negative) (signed (signOf negative) (d * 10 ^ p))
      (Numeral.finite negative d p).toFloat32 := by
  obtain ⟨m, e, hnearest, he, hmagnitude⟩ := exists_isNearest_bits hd hhigh hfits
  have hlt := (magnitudeBits_lt_infinityBits (by decide) hnearest.canonical he).trans_le
    (infinityBits_le_signBit _)
  have hsignBit : Decimal.Format.binary32.signBit = 2 ^ 31 := by decide
  have hbits : (Numeral.finite negative d p).toBits .binary32 =
      (if negative then Decimal.Format.binary32.signBit else 0) + magnitudeBits .binary32 m e := by
    rw [← hmagnitude]
    rfl
  have hword : (Numeral.finite negative d p).toBits .binary32 < 2 ^ 32 := by
    rw [hbits]
    split <;> omega
  have hhas : HasBits .binary32
      ((Numeral.finite negative d p).toBits .binary32).toUInt32.toBitVec.toNat negative m e :=
    ⟨hnearest.canonical, he, (UInt32.toNat_ofNat_of_lt' hword).trans hbits⟩
  have hdecimal : (0 : ℚ) ≤ d * 10 ^ p := by positivity
  refine isNearestSingle_of_unpack hdecimal ?_ hnearest
  exact (unpack_ofBits_single _).trans (hhas.unpack (F := .binary32) (by decide))

/-- Decimals below one are not rounded beyond one. -/
theorem nearestMagnitude_lt_of_lt_one {q : ℚ} (hpos : 0 < q) (hlt : q < 1) :
    nearestMagnitude .binary32 q < 2 ^ (128 : ℤ) := by
  have hone : nearestMagnitude .binary32 ((1 : ℤ) * 2 ^ (0 : ℤ)) = (1 : ℤ) * 2 ^ (0 : ℤ) :=
    nearestMagnitude_representable (by decide) one_pos (by decide) (by decide)
  calc nearestMagnitude .binary32 q ≤ nearestMagnitude .binary32 ((1 : ℤ) * 2 ^ (0 : ℤ)) :=
        nearestMagnitude_mono (by decide) hpos (by norm_num [hlt.le])
    _ < 2 ^ (128 : ℤ) := by
        rw [hone]
        norm_num

/-- A single is nearest to the decimal that a text says. -/
def IsNearestToText (text : String) (x : Float32) : Prop :=
  ∃ negative q, SaysDecimal text.toList negative q ∧
    IsNearestSingle (signOf negative) (signed (signOf negative) q) x

end Decimals

end SeededArt
