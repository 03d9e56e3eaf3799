import SeededArt.Proofs.Numbers.Shift
/-!
# Sums and products of unpacked doubles

On zeros and canonical numbers addition, subtraction and multiplication give the double nearest to
the exact result, of whatever size (`add_roundsTo`, `sub_roundsTo`, `mul_roundsTo`), and the order
is the order of the values (`lt_iff`).
-/

namespace SeededArt

open Float.Model Float.Model.UnpackedFloat

/-! ## Signs -/

section Signs

variable (s t : Sign) (p q : ℚ)

theorem nearest_signed : nearest (signed s q) = signed s (nearest q) := by
  cases s with
  | negative => exact nearest_neg q
  | positive => rfl

theorem apply_eq_signed (n : ℤ) : ((s.apply n : ℤ) : ℚ) = signed s n := by
  cases s with
  | negative => exact Int.cast_neg n
  | positive => rfl

theorem signed_mul_left : signed s (p * q) = signed s p * q := by
  cases s with
  | negative => exact (neg_mul p q).symm
  | positive => rfl

theorem signed_mul_signed : signed s p * signed t q = signed (s * t) (p * q) := by
  cases s with
  | negative =>
    cases t with
    | negative => exact neg_mul_neg p q
    | positive => exact neg_mul p q
  | positive =>
    cases t with
    | negative => exact mul_neg p q
    | positive => rfl

theorem signed_neg : signed (-s) q = -signed s q := by
  cases s with
  | negative => exact (neg_neg q).symm
  | positive => rfl

theorem abs_signed : |signed s q| = |q| := by
  cases s with
  | negative => exact abs_neg q
  | positive => rfl

end Signs

theorem nearest_of_pos {q : ℚ} (h : 0 < q) : nearest q = nearestMagnitude .binary64 q := by
  unfold nearest
  rw [if_neg (not_lt.2 h.le), if_neg h.ne']

/-! ## Canonical numbers -/

theorem Canonical.representable {m : ℕ} {e : ℤ} (h : Canonical .binary64 m e) (s : Sign) :
    Representable (signed s (m * 2 ^ e)) := by
  have hlt : m < 2 ^ 53 := h.lt
  have hpos : Representable (m * 2 ^ e) :=
    ⟨m, e, by rw [abs_of_nonneg (by omega)]; omega, h.exponent_ge, by push_cast; rfl⟩
  cases s with
  | negative => exact hpos.neg
  | positive => exact hpos

theorem IsRounded.nearest_value {x : UnpackedFloat} (h : IsRounded .binary64 x) :
    nearest (unpackedValue x) = unpackedValue x := by
  cases h with
  | zero s => exact nearest_zero
  | finite s hm hc => exact nearest_representable (hc.representable s)

/-- A sum, difference or product of rounded numbers is rounded to the exact result. -/
structure RoundsTo (q : ℚ) (x : UnpackedFloat) : Prop where
  isRounded : IsRounded .binary64 x
  value_eq : unpackedValue x = nearest q

theorem IsRounded.roundsTo {x : UnpackedFloat} (h : IsRounded .binary64 x) {q : ℚ}
    (hq : q = unpackedValue x) : RoundsTo q x :=
  ⟨h, by rw [hq, h.nearest_value]⟩

theorem roundsTo_zero (s : Sign) : RoundsTo 0 (.zero s) :=
  (IsRounded.zero s).roundsTo rfl

/-! ## Normalizing -/

theorem decreaseExponent_mul_zpow (m : ℕ) (e t : ℤ) :
    ((decreaseExponent m e t).1 : ℚ) * 2 ^ (decreaseExponent m e t).2 = m * 2 ^ e := by
  generalize hk : (e - t).toNat = k
  rw [decreaseExponent, hk]
  calc ((m <<< k : ℕ) : ℚ) * 2 ^ (e - k) = m * (2 ^ (k : ℤ) * 2 ^ (e - k)) := by
        rw [Nat.shiftLeft_eq, zpow_natCast]
        push_cast
        ring
    _ = m * 2 ^ e := by rw [← zpow_add₀ (by norm_num), add_sub_cancel]

theorem round_roundsTo (s : Sign) {m : ℕ} (hm : 0 < m) (e : ℤ) :
    RoundsTo (signed s (m * 2 ^ e)) (Float.Model.UnpackedFloat.round .binary64 s m e) := by
  have hpow := two_zpow_pos e
  have hpos : (0 : ℚ) < m * 2 ^ e := by positivity
  have hvalue := decreaseExponent_mul_zpow m e (unitExponent .binary64 (m * 2 ^ e))
  have hle : (decreaseExponent m e (unitExponent .binary64 (m * 2 ^ e))).2 ≤
      unitExponent .binary64 ((decreaseExponent m e (unitExponent .binary64 (m * 2 ^ e))).1 *
        2 ^ (decreaseExponent m e (unitExponent .binary64 (m * 2 ^ e))).2) := by
    rw [hvalue]
    simp only [decreaseExponent]
    omega
  have hm' : 0 < (decreaseExponent m e (unitExponent .binary64 (m * 2 ^ e))).1 := by
    simp only [decreaseExponent, Nat.shiftLeft_eq]
    positivity
  have hspec := roundWithAccuracy_spec s hm' hle
  rw [hvalue] at hspec
  have hround : Float.Model.UnpackedFloat.round .binary64 s m e =
      roundWithAccuracy .binary64 s (decreaseExponent m e (unitExponent .binary64 (m * 2 ^ e))).1
        (decreaseExponent m e (unitExponent .binary64 (m * 2 ^ e))).2 .exact := by
    rw [Float.Model.UnpackedFloat.round, targetExponent_eq hm]
  rw [hround]
  exact ⟨hspec.1, by rw [hspec.2, nearest_signed, nearest_of_pos hpos]⟩

theorem normalize_roundsTo (n e : ℤ) (s : Sign) :
    RoundsTo (n * 2 ^ e) (normalize .binary64 n e s) := by
  rw [UnpackedFloat.normalize]
  rcases lt_trichotomy n 0 with h | rfl | h
  · rw [Int.compare_eq_lt.2 h]
    have hround := round_roundsTo .negative (m := (-n).toNat) (by omega) e
    have hcast : (((-n).toNat : ℕ) : ℚ) = -n := by
      rw [← Int.cast_natCast, Int.toNat_of_nonneg (by omega), Int.cast_neg]
    rwa [hcast, signed, neg_mul, neg_neg] at hround
  · rw [Int.compare_eq_eq.2 rfl, Int.cast_zero, zero_mul]
    exact roundsTo_zero s
  · rw [Int.compare_eq_gt.2 h]
    have hround := round_roundsTo .positive (m := n.toNat) (by omega) e
    have hcast : ((n.toNat : ℕ) : ℚ) = n := by
      rw [← Int.cast_natCast, Int.toNat_of_nonneg h.le]
    rwa [hcast, signed] at hround

/-! ## Sums, differences and products -/

/-- Aligned to an exponent that is not greater, a mantissa stands for the same number. -/
theorem aligned_value (s : Sign) (m : ℕ) {e t : ℤ} (h : t ≤ e) :
    ((s.apply ((decreaseExponent m e t).1 : ℤ) : ℤ) : ℚ) * 2 ^ t = signed s (m * 2 ^ e) := by
  have hvalue := decreaseExponent_mul_zpow m e t
  have hexp : (decreaseExponent m e t).2 = t := by
    simp only [decreaseExponent]
    omega
  rw [hexp] at hvalue
  rw [apply_eq_signed, Int.cast_natCast, ← signed_mul_left, hvalue]

section Operations

variable {x y : UnpackedFloat}

theorem add_roundsTo (hx : IsRounded .binary64 x) (hy : IsRounded .binary64 y) :
    RoundsTo (unpackedValue x + unpackedValue y) (UnpackedFloat.add .binary64 x y) := by
  cases hx with
  | zero s =>
    cases hy with
    | zero t =>
      rw [unpackedValue_zero, unpackedValue_zero, add_zero]
      show RoundsTo 0 (if s == t then .zero s else .zero .positive)
      split
      next => exact roundsTo_zero s
      next => exact roundsTo_zero .positive
    | finite t hn hc => exact (IsRounded.finite t hn hc).roundsTo (zero_add _)
  | @finite s m e hm hc =>
    cases hy with
    | zero t => exact (IsRounded.finite s hm hc).roundsTo (add_zero _)
    | @finite t n f hn hd =>
      have h := normalize_roundsTo (s.apply ((decreaseExponent m e (min e f)).1 : ℤ) +
        t.apply ((decreaseExponent n f (min e f)).1 : ℤ)) (min e f) .positive
      rw [Int.cast_add, add_mul, aligned_value s m (min_le_left e f),
        aligned_value t n (min_le_right e f)] at h
      exact h

theorem sub_roundsTo (hx : IsRounded .binary64 x) (hy : IsRounded .binary64 y) :
    RoundsTo (unpackedValue x - unpackedValue y) (UnpackedFloat.sub .binary64 x y) := by
  cases hx with
  | zero s =>
    cases hy with
    | zero t =>
      rw [unpackedValue_zero, unpackedValue_zero, sub_zero]
      show RoundsTo 0 (if s == -t then .zero s else .zero .positive)
      split
      next => exact roundsTo_zero s
      next => exact roundsTo_zero .positive
    | @finite t n f hn hd =>
      refine (IsRounded.finite (-t) hn hd).roundsTo ?_
      rw [unpackedValue_zero, unpackedValue_finite, unpackedValue_finite, signed_neg, zero_sub]
  | @finite s m e hm hc =>
    cases hy with
    | zero t => exact (IsRounded.finite s hm hc).roundsTo (sub_zero _)
    | @finite t n f hn hd =>
      have h := normalize_roundsTo (s.apply ((decreaseExponent m e (min e f)).1 : ℤ) -
        t.apply ((decreaseExponent n f (min e f)).1 : ℤ)) (min e f) .positive
      rw [Int.cast_sub, sub_mul, aligned_value s m (min_le_left e f),
        aligned_value t n (min_le_right e f)] at h
      exact h

/-- The exact product of two canonical numbers is not finer than its unit, unless it is less than
all units. -/
theorem add_le_unitExponent {m n : ℕ} {e f : ℤ} (hm : 0 < m) (hn : 0 < n)
    (hc : Canonical .binary64 m e) (hd : Canonical .binary64 n f) :
    e + f ≤ unitExponent .binary64 ((m * n : ℕ) * 2 ^ (e + f)) := by
  have hmn : 0 < m * n := Nat.mul_pos hm hn
  rw [unitExponent_binary64, log_mul_zpow hmn]
  by_cases hfull : 2 ^ 52 ≤ m * n
  · have hlog : 52 ≤ (m * n).log2 := (Nat.le_log2 hmn.ne').2 hfull
    omega
  · have he : e = -1074 :=
      hc.full.resolve_left fun h => hfull (h.trans (Nat.le_mul_of_pos_right m hn))
    have hf : f = -1074 :=
      hd.full.resolve_left fun h => hfull (h.trans (Nat.le_mul_of_pos_left n hm))
    omega

theorem mul_roundsTo (hx : IsRounded .binary64 x) (hy : IsRounded .binary64 y) :
    RoundsTo (unpackedValue x * unpackedValue y) (UnpackedFloat.mul .binary64 x y) := by
  cases hx with
  | zero s =>
    rw [unpackedValue_zero, zero_mul]
    cases hy with
    | zero t => exact roundsTo_zero (s * t)
    | finite t => exact roundsTo_zero (s * t)
  | @finite s m e hm hc =>
    cases hy with
    | zero t =>
      rw [unpackedValue_zero, mul_zero]
      exact roundsTo_zero (s * t)
    | @finite t n f hn hd =>
      have hmn : 0 < m * n := Nat.mul_pos hm hn
      have hspec := roundWithAccuracy_spec (s * t) hmn (add_le_unitExponent hm hn hc hd)
      have hpow := two_zpow_pos (e + f)
      have hpos : (0 : ℚ) < (m * n : ℕ) * 2 ^ (e + f) := by positivity
      have hexact : unpackedValue (.finite s m e hm) * unpackedValue (.finite t n f hn) =
          signed (s * t) ((m * n : ℕ) * 2 ^ (e + f)) := by
        rw [unpackedValue_finite, unpackedValue_finite, signed_mul_signed, zpow_add₀ (by norm_num)]
        congr 1
        push_cast
        ring
      rw [hexact]
      exact ⟨hspec.1, by rw [nearest_signed, nearest_of_pos hpos]; exact hspec.2⟩

end Operations

/-! ## Order -/

section Order

variable {m n : ℕ} {e f : ℤ}

theorem compare_magnitudes (hc : Canonical .binary64 m e) (hd : Canonical .binary64 n f) :
    (compare e f).then (compare m n) = .lt ↔ (m : ℚ) * 2 ^ e < n * 2 ^ f := by
  rcases lt_trichotomy e f with h | rfl | h
  · rw [Int.compare_eq_lt.2 h]
    exact iff_of_true rfl (magnitude_lt_of_exponent_lt (by decide) hc hd h)
  · rw [Int.compare_eq_eq.2 rfl, mul_lt_mul_iff_left₀ (two_zpow_pos e), Nat.cast_lt]
    exact Nat.compare_eq_lt
  · rw [Int.compare_eq_gt.2 h]
    exact iff_of_false Ordering.noConfusion (magnitude_lt_of_exponent_lt (by decide) hd hc h).not_gt

theorem swap_compare_magnitudes (hc : Canonical .binary64 m e) (hd : Canonical .binary64 n f) :
    ((compare e f).then (compare m n)).swap = .lt ↔ (n : ℚ) * 2 ^ f < m * 2 ^ e := by
  rw [Ordering.swap_then, Int.compare_swap, Nat.compare_swap, compare_magnitudes hd hc]

theorem lt_iff {x y : UnpackedFloat} (hx : IsRounded .binary64 x) (hy : IsRounded .binary64 y) :
    x.lt y = true ↔ unpackedValue x < unpackedValue y := by
  have hnot : some Ordering.gt ≠ some Ordering.lt := by decide
  rw [UnpackedFloat.lt, beq_iff_eq]
  cases hx with
  | zero s =>
    cases hy with
    | zero t =>
      have hequal : some Ordering.eq ≠ some Ordering.lt := by decide
      exact iff_of_false hequal (lt_irrefl 0)
    | @finite t n f hn =>
      have hpos := magnitude_pos hn f
      rw [unpackedValue_zero, unpackedValue_finite]
      cases t with
      | negative =>
        unfold signed
        exact iff_of_false hnot (by linarith)
      | positive => exact iff_of_true rfl hpos
  | @finite s m e hm hc =>
    have hpos := magnitude_pos hm e
    cases hy with
    | zero t =>
      rw [unpackedValue_zero, unpackedValue_finite]
      cases s with
      | negative =>
        unfold signed
        exact iff_of_true rfl (by linarith)
      | positive => exact iff_of_false hnot hpos.not_gt
    | @finite t n f hn hd =>
      have hpos' := magnitude_pos hn f
      rw [unpackedValue_finite, unpackedValue_finite]
      cases s with
      | negative =>
        cases t with
        | negative =>
          rw [signed, signed, neg_lt_neg_iff, ← swap_compare_magnitudes hc hd]
          exact Option.some_inj
        | positive =>
          rw [signed, signed]
          exact iff_of_true rfl (by linarith)
      | positive =>
        cases t with
        | negative =>
          rw [signed, signed]
          exact iff_of_false hnot (by linarith)
        | positive =>
          rw [signed, signed, ← compare_magnitudes hc hd]
          exact Option.some_inj

end Order

end SeededArt
