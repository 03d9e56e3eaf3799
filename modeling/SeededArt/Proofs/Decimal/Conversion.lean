import SeededArt.Proofs.Decimal.Notation
import SeededArt.Proofs.Decimal.Shortest
import SeededArt.Proofs.Numbers.Double
/-!
# Doubles as decimals

A decimal reads as a positive double exactly if it lies in the neighbourhood of the double
(`contains_of_toFloat`, `toFloat_of_contains`); decimals far outside the range of doubles, which
are not computed, are none of them. So the literal of a positive double is the shortest decimal that
reads as the double (`exists_literal_eq`), and it reads back as the double
(`exists_read?_literal`).
-/

namespace SeededArt

open Decimal Float.Model Float.Model.UnpackedFloat Arithmetic SeededArt.Valuation

/-! ## The bits of positive doubles -/

section Bits

variable {s t : Sign} {m : ℕ} {e : ℤ} {hm : 0 < m} {x y : Float}

theorem assemble_eq_finite_iff {n : ℕ} {f : ℤ} :
    assemble s n f = .finite t m e hm ↔ s = t ∧ n = m ∧ f = e := by
  rcases Nat.eq_zero_or_pos n with rfl | hn
  · rw [assemble, dif_pos rfl]
    refine iff_of_false (fun h => by cases h) fun h => hm.ne h.2.1
  · rw [assemble_of_pos s hn, UnpackedFloat.finite.injEq]

theorem exists_hasBits_double (h : x.toModel.unpack.isFinite = true) :
    ∃ negative m e, HasBits .binary64 x.toBits.toNat negative m e ∧
      x.toModel.unpack = assemble (signOf negative) m e := by
  obtain ⟨negative, m, e, hbits⟩ := exists_hasBits (F := .binary64) (by decide) h
  exact ⟨negative, m, e, hbits, hbits.unpack (F := .binary64) (by decide)⟩

theorem hasBits_of_unpack (h : x.toModel.unpack = .finite .positive m e hm) :
    HasBits .binary64 x.toBits.toNat false m e := by
  obtain ⟨negative, n, d, hbits, hunpack⟩ := exists_hasBits_double (x := x) (by rw [h]; rfl)
  obtain ⟨hsign, rfl, rfl⟩ := assemble_eq_finite_iff.1 (hunpack.symm.trans h)
  cases negative with
  | false => exact hbits
  | true => cases hsign

theorem canonical_of_unpack (h : x.toModel.unpack = .finite s m e hm) :
    Canonical .binary64 m e ∧ e ≤ 971 := by
  have hdouble := isPacked_double x
  rw [h] at hdouble
  cases hdouble with
  | finite _ _ hc he => exact ⟨hc, Decimal.Format.greatest_binary64 ▸ he⟩

/-- A positive double is known by what its bits stand for. -/
theorem eq_of_unpack_eq (hx : x.toModel.unpack = .finite .positive m e hm)
    (hy : y.toModel.unpack = .finite .positive m e hm) : x = y := by
  have hbits : x.toBits = y.toBits :=
    UInt64.toNat_inj.1 ((hasBits_of_unpack hx).eq.trans (hasBits_of_unpack hy).eq.symm)
  obtain ⟨⟨b, _⟩⟩ := x
  obtain ⟨⟨c, _⟩⟩ := y
  obtain rfl : b = c := hbits
  rfl

theorem ofFloat_of_unpack (h : x.toModel.unpack = .finite .positive m e hm) :
    Signed.ofFloat x = ⟨false, .finite m e⟩ :=
  (hasBits_of_unpack h).signed (by decide)

end Bits

/-! ## Decimals read as doubles -/

section Reading

variable {x : Float} {m : ℕ} {e : ℤ} {hm : 0 < m} {d : ℕ} {p : ℤ}

theorem cast_mul_raise (d : ℕ) (p : ℤ) :
    ((d * raise 10 p : ℕ) : ℚ) / (raise 10 (-p) : ℕ) = d * 10 ^ p := by
  have hraise : ((raise 10 (-p) : ℕ) : ℚ) ≠ 0 := by
    exact_mod_cast (raise_pos (by norm_num) (-p)).ne'
  rw [Nat.cast_mul, raise_eq (by norm_num), Nat.cast_ofNat, ← mul_assoc,
    mul_div_cancel_right₀ _ hraise]

theorem nearest_of_inRange (f : Decimal.Format) (hd : 0 < d)
    (hlow : -400 ≤ p + Numeral.digitCount d) (hhigh : p + Numeral.digitCount d ≤ 400) :
    Numeral.nearest f d p = f.nearest (d * raise 10 p) (raise 10 (-p)) := by
  rw [Numeral.nearest, if_neg (by omega), if_neg (by omega)]

theorem toFloat_of_inRange (hd : 0 < d) (hlow : -400 ≤ p + Numeral.digitCount d)
    (hhigh : p + Numeral.digitCount d ≤ 400) :
    (Numeral.finite false d p).toFloat = doubleOfQuotient (d * raise 10 p) (raise 10 (-p)) := by
  show Float.ofBits (0 + Numeral.nearest .binary64 d p).toUInt64 = _
  rw [Nat.zero_add, nearest_of_inRange _ hd hlow hhigh]
  rfl

theorem inRange_of_toFloat
    (h : (Numeral.finite false d p).toFloat.toModel.unpack = .finite .positive m e hm) :
    0 < d ∧ -400 ≤ p + Numeral.digitCount d ∧ p + Numeral.digitCount d ≤ 400 := by
  have htoFloat : (Numeral.finite false d p).toFloat =
      .ofBits (0 + Numeral.nearest .binary64 d p).toUInt64 := rfl
  rw [htoFloat, Nat.zero_add] at h
  unfold Numeral.nearest at h
  by_cases hsmall : d = 0 ∨ p + Numeral.digitCount d < -400
  · rw [if_pos hsmall] at h
    cases h
  · rw [if_neg hsmall] at h
    by_cases hlarge : 400 < p + Numeral.digitCount d
    · rw [if_pos hlarge] at h
      cases h
    · omega

/-- What is read as a positive double lies in its neighbourhood. -/
theorem contains_of_toFloat
    (h : (Numeral.finite false d p).toFloat.toModel.unpack = .finite .positive m e hm) :
    (Neighbourhood.of .binary64 m e).Contains (d * 10 ^ p) := by
  obtain ⟨hd, hlow, hhigh⟩ := inRange_of_toFloat h
  have hnum : 0 < d * raise 10 p := Nat.mul_pos hd (raise_pos (by norm_num) p)
  have hpos : (0 : ℚ) < d * 10 ^ p := by positivity
  have hden : 0 < raise 10 (-p) := raise_pos (by norm_num) (-p)
  have hrounds := doubleOfQuotient_rounds hnum hden
  rw [cast_mul_raise, ← toFloat_of_inRange hd hlow hhigh] at hrounds
  obtain ⟨hc, -⟩ := canonical_of_unpack h
  obtain ⟨hfinite, hvalue⟩ := finite_of_canonical hm hc h
  have hnearest : value (Numeral.finite false d p).toFloat = nearest (d * 10 ^ p) :=
    hrounds.value_eq hfinite
  rw [← nearestMagnitude_eq_iff hm hc hpos, ← nearest_of_pos hpos, ← hnearest, hvalue]

/-- The number of digits is counted with one too many at most. -/
theorem zpow_digitCount_le (hd : 0 < d) (hlog : d.log2 ≤ 100000) :
    (10 : ℚ) ^ ((Numeral.digitCount d : ℤ) - 1) ≤ 2 * d := by
  have hcount : (Numeral.digitCount d : ℤ) - 1 = (d.log2 : ℤ) * 30103 / 100000 := by
    unfold Numeral.digitCount
    omega
  have hbound := (decimalLog_bounds (x := d.log2) (by rw [abs_le]; omega)).1
  have hpow : (2 : ℚ) ^ d.log2 ≤ d := by exact_mod_cast Nat.log2_self_le hd.ne'
  rw [hcount]
  calc (10 : ℚ) ^ ((d.log2 : ℤ) * 30103 / 100000) ≤ 2 ^ ((d.log2 : ℤ) + 1) := hbound
    _ = 2 * 2 ^ d.log2 := by rw [zpow_add_one₀ two_ne_zero, zpow_natCast, mul_comm]
    _ ≤ 2 * d := by linarith

/-- The decimals of a neighbourhood are not far outside the range of doubles. -/
theorem inRange_of_contains (hm : 0 < m) (hc : Canonical .binary64 m e) (he : e ≤ 971)
    (hp : -400 ≤ p) (hd : 0 < d) (h : (Neighbourhood.of .binary64 m e).Contains (d * 10 ^ p)) :
    p + Numeral.digitCount d ≤ 400 := by
  have hten := ten_zpow_pos p
  have hceiling : decimalCeiling m e + 1 ≤ 309 := by
    have hlog : m.log2 < 53 := (Nat.log2_lt hm.ne').2 hc.lt
    unfold decimalCeiling
    omega
  have hless : (d : ℚ) * 10 ^ p < 10 ^ (309 : ℤ) :=
    (lt_of_contains_of (abs_log_le hm hc he) h).trans_le
      (zpow_le_zpow_right₀ (by norm_num) hceiling)
  have hlog : d.log2 ≤ 100000 := by
    have hfew : (2 : ℚ) ^ (d.log2 : ℤ) < 2 ^ (4 * 709 : ℤ) := by
      calc (2 : ℚ) ^ (d.log2 : ℤ) ≤ d := by exact_mod_cast Nat.log2_self_le hd.ne'
        _ < 10 ^ (709 : ℤ) := by
          refine lt_of_mul_lt_mul_right (hless.trans_le ?_) hten.le
          rw [← zpow_add₀ (by norm_num)]
          exact zpow_le_zpow_right₀ (by norm_num) (by omega)
        _ ≤ (2 ^ (4 : ℤ)) ^ (709 : ℤ) :=
          zpow_le_zpow_left₀ (by norm_num) (by norm_num) (by norm_num)
        _ = 2 ^ (4 * 709 : ℤ) := (zpow_mul _ _ _).symm
    have := (zpow_lt_zpow_iff_right₀ one_lt_two).1 hfew
    omega
  have hpower : (10 : ℚ) ^ (p + Numeral.digitCount d - 1) < 10 ^ (309 + 1 : ℤ) := by
    have hfar := ten_zpow_pos 309
    calc (10 : ℚ) ^ (p + Numeral.digitCount d - 1)
        = 10 ^ ((Numeral.digitCount d : ℤ) - 1) * 10 ^ p := by
          rw [← zpow_add₀ (by norm_num)]
          congr 1
          ring
      _ ≤ 2 * d * 10 ^ p := mul_le_mul_of_nonneg_right (zpow_digitCount_le hd hlog) hten.le
      _ < 10 ^ (309 : ℤ) * 10 := by
          generalize (10 : ℚ) ^ (309 : ℤ) = bound at *
          linarith
      _ = 10 ^ (309 + 1 : ℤ) := (zpow_add_one₀ (by norm_num) _).symm
  have := (zpow_lt_zpow_iff_right₀ (by norm_num)).1 hpower
  omega

theorem toFloat_of_contains (hx : x.toModel.unpack = .finite .positive m e hm) (hp : -400 ≤ p)
    (h : (Neighbourhood.of .binary64 m e).Contains (d * 10 ^ p)) :
    (Numeral.finite false d p).toFloat = x := by
  obtain ⟨hc, he⟩ := canonical_of_unpack hx
  have hpos := (Neighbourhood.isAround_of hm .binary64 e).pos h
  have hd := (Neighbourhood.isAround_of hm .binary64 e).digits_pos h
  have hnum : 0 < d * raise 10 p := Nat.mul_pos hd (raise_pos (by norm_num) p)
  have hden : 0 < raise 10 (-p) := raise_pos (by norm_num) (-p)
  have hhigh := inRange_of_contains hm hc he hp hd h
  rw [toFloat_of_inRange hd (by omega) hhigh]
  obtain ⟨n, f, hn, hvalue, heq⟩ := exists_doubleOfQuotient_eq hnum hden
  rw [cast_mul_raise, (nearestMagnitude_eq_iff hm hc hpos).2 h] at hvalue
  obtain ⟨rfl, rfl⟩ := hc.unique (by decide) hn hvalue
  refine eq_of_unpack_eq ?_ hx
  rw [heq, assemble_of_pos _ hm]
  exact unpack_pack_double (.finite .positive hm hc (Format.greatest_binary64 ▸ he))

end Reading

/-! ## The size of a decimal -/

theorem lt_zpow_leading (s : Scaled) : (s.digits : ℚ) * 10 ^ s.power < 10 ^ (s.leading + 1) := by
  have hten := ten_zpow_pos s.power
  have hdigits : (s.digits : ℚ) < 10 ^ (Nat.toDigits 10 s.digits).length := by
    exact_mod_cast lt_pow_length s.digits
  calc (s.digits : ℚ) * 10 ^ s.power
      < 10 ^ (Nat.toDigits 10 s.digits).length * 10 ^ s.power :=
        mul_lt_mul_of_pos_right hdigits hten
    _ = 10 ^ (s.leading + 1) := by
      rw [← zpow_natCast, ← zpow_add₀ (by norm_num), Scaled.leading, sub_add_cancel, add_comm]

theorem zpow_leading_le {s : Scaled} (hs : 0 < s.digits) :
    (10 : ℚ) ^ s.leading ≤ s.digits * 10 ^ s.power := by
  have hten := ten_zpow_pos s.power
  have hlength : 0 < (Nat.toDigits 10 s.digits).length := Nat.length_toDigits_pos
  have hleading : s.leading = ((Nat.toDigits 10 s.digits).length - 1 : ℕ) + s.power := by
    unfold Scaled.leading
    omega
  rw [hleading, zpow_add₀ (by norm_num), zpow_natCast]
  refine mul_le_mul_of_nonneg_right ?_ hten.le
  rcases Nat.eq_zero_or_pos ((Nat.toDigits 10 s.digits).length - 1) with hzero | hpos
  · rw [hzero, pow_zero]
    exact_mod_cast hs
  · exact zpow_le_of_lt_length (by omega) hpos

/-- The place of the leading digit is the size of a decimal. -/
theorem leading_lt_iff {s : Scaled} (hs : 0 < s.digits) (j : ℤ) :
    s.leading < j ↔ (s.digits : ℚ) * 10 ^ s.power < 10 ^ j := by
  constructor
  · intro h
    exact (lt_zpow_leading s).trans_le (zpow_le_zpow_right₀ (by norm_num) h)
  · intro h
    exact (zpow_lt_zpow_iff_right₀ (by norm_num)).1 ((zpow_leading_le hs).trans_lt h)

/-! ## Literals of positive doubles -/

/-- The zeros with which a whole number is written do not change its value. -/
theorem exists_readChars?_scaledText (s : Scaled) :
    ∃ d p, Numeral.readChars? (Layout.literal.scaledText s) = some (.finite false d p) ∧
      (d : ℚ) * 10 ^ p = s.digits * 10 ^ s.power ∧ min s.power (-1) ≤ p := by
  rw [readChars?_scaledText]
  split
  next hwhole =>
    have hpower : ((s.power.toNat + 1 : ℕ) : ℤ) + -1 = s.power := by omega
    refine ⟨_, _, rfl, ?_, min_le_right _ _⟩
    rw [Nat.cast_mul, Nat.cast_pow, mul_assoc, Nat.cast_ofNat, ← zpow_natCast,
      ← zpow_add₀ (by norm_num), hpower]
  next => exact ⟨_, _, rfl, rfl, min_le_left _ _⟩

/-- A decimal that reads as a double, with as few digits as any decimal that does, and as near to
the double as any of the same power of ten that does. -/
structure IsShortestFor (x : Float) (s : Scaled) : Prop where
  reads : (Numeral.finite false s.digits s.power).toFloat = x
  fewest : ∀ (d : ℕ) (p : ℤ), (Numeral.finite false d p).toFloat = x →
    (Nat.toDigits 10 s.digits).length ≤ (Nat.toDigits 10 d).length
  closest : ∀ d : ℕ, (Numeral.finite false d s.power).toFloat = x →
    |(s.digits : ℚ) * 10 ^ s.power - value x| ≤ |(d : ℚ) * 10 ^ s.power - value x|

section Literals

variable {x : Float} {m : ℕ} {e : ℤ} {hm : 0 < m}

theorem literal_of_unpack (h : x.toModel.unpack = .finite .positive m e hm) :
    literal x = String.ofList (Layout.literal.scaledText (shortest .binary64 .up m e)) := by
  show Layout.literal.signedText .binary64 (Signed.ofFloat x) = _
  rw [ofFloat_of_unpack h]
  obtain ⟨n, rfl⟩ := Nat.exists_eq_add_one_of_ne_zero hm.ne'
  exact String.empty_append

/-- The decimals that are written are not computed far outside the range of doubles. -/
theorem least_le_power_shortest (hm : 0 < m) (hc : Canonical .binary64 m e) (he : e ≤ 971) :
    -400 ≤ (shortest .binary64 .up m e).power := by
  obtain ⟨-, hpower⟩ := isShortest_shortest .up hm hc he
  have hleast : -1074 ≤ e := hc.exponent_ge
  unfold decimalCeiling at hpower
  omega

theorem isShortestFor_of_unpack (h : x.toModel.unpack = .finite .positive m e hm) :
    IsShortestFor x (shortest .binary64 .up m e) := by
  obtain ⟨hc, he⟩ := canonical_of_unpack h
  obtain ⟨hshortest, -⟩ := isShortest_shortest .up hm hc he
  have hvalue : ((Neighbourhood.of .binary64 m e).value : ℚ) * 2 ^ (e - 2) = value x := by
    rw [(finite_of_canonical hm hc h).2]
    show ((4 * m : ℕ) : ℚ) * 2 ^ (e - 2) = _
    rw [zpow_sub₀ two_ne_zero]
    push_cast
    ring
  have hcontains {d : ℕ} {p : ℤ} (hd : (Numeral.finite false d p).toFloat = x) :
      (Neighbourhood.of .binary64 m e).Contains (d * 10 ^ p) := by
    rw [← hd] at h
    exact contains_of_toFloat h
  refine ⟨toFloat_of_contains h (least_le_power_shortest hm hc he) hshortest.contains,
    fun d p hd => hshortest.fewest d p (hcontains hd), fun d hd => ?_⟩
  rw [← hvalue]
  exact hshortest.closest d (hcontains hd)

theorem exists_unpack_of_pos (hx : isFinite x = true) (hpos : 0 < value x) :
    ∃ (m : ℕ) (e : ℤ) (hm : 0 < m), x.toModel.unpack = .finite .positive m e hm := by
  have hvalue : value x = unpackedValue x.toModel.unpack := rfl
  have hrounded := isRounded_of_finite hx
  rw [hvalue] at hpos
  generalize x.toModel.unpack = u at hrounded hpos
  cases hrounded with
  | zero s => exact absurd hpos (lt_irrefl 0)
  | @finite s m e hm hc =>
    cases s with
    | positive => exact ⟨m, e, hm, rfl⟩
    | negative =>
      have := magnitude_pos hm e
      rw [unpackedValue_finite, signed] at hpos
      linarith

theorem nearest_of_contains (h : x.toModel.unpack = .finite .positive m e hm) {q : ℚ}
    (hq : (Neighbourhood.of .binary64 m e).Contains q) : nearest q = value x := by
  obtain ⟨hc, -⟩ := canonical_of_unpack h
  have hpos := (Neighbourhood.isAround_of hm .binary64 e).pos hq
  rw [nearest_of_pos hpos, (nearestMagnitude_eq_iff hm hc hpos).2 hq,
    (finite_of_canonical hm hc h).2]

/-- The literal of a positive double is the shortest decimal that is rounded to the double. -/
theorem exists_literal_eq (hx : isFinite x = true) (hpos : 0 < value x) :
    ∃ s : Scaled, literal x = String.ofList (Layout.literal.scaledText s) ∧ IsShortestFor x s ∧
      0 < s.digits ∧ nearest (s.digits * 10 ^ s.power) = value x := by
  obtain ⟨m, e, hm, h⟩ := exists_unpack_of_pos hx hpos
  obtain ⟨hc, he⟩ := canonical_of_unpack h
  obtain ⟨⟨hcontains, -, -⟩, -⟩ := isShortest_shortest .up hm hc he
  exact ⟨_, literal_of_unpack h, isShortestFor_of_unpack h,
    (Neighbourhood.isAround_of hm .binary64 e).digits_pos hcontains,
    nearest_of_contains h hcontains⟩

/-- The literal of a positive double reads back as the double. -/
theorem exists_read?_literal (hx : isFinite x = true) (hpos : 0 < value x) :
    ∃ d p, Numeral.read? (literal x) = some (.finite false d p) ∧
      (Numeral.finite false d p).toFloat = x ∧ nearest (d * 10 ^ p) = value x := by
  obtain ⟨m, e, hm, h⟩ := exists_unpack_of_pos hx hpos
  obtain ⟨hc, he⟩ := canonical_of_unpack h
  obtain ⟨⟨hcontains, -, -⟩, -⟩ := isShortest_shortest .up hm hc he
  obtain ⟨d, p, hread, hvalue, hp⟩ := exists_readChars?_scaledText (shortest .binary64 .up m e)
  rw [← String.toList_ofList (l := Layout.literal.scaledText _), ← literal_of_unpack h] at hread
  rw [← hvalue] at hcontains
  have hleast := least_le_power_shortest hm hc he
  exact ⟨d, p, hread, toFloat_of_contains h (by omega) hcontains, nearest_of_contains h hcontains⟩

end Literals

end SeededArt
