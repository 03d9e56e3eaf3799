import SeededArt.Proofs.Grammar.Soundness
import SeededArt.Proofs.Numbers.NearOne
/-!
# Draws of the unit interval under rounding

A scaled draw lies between zero and the total (`scaled_mem_interval`), so whatever is chosen has
raised the running sum, and has a positive weight (`choosesPositive_of_inUnit`).

A double below one is at most `1 - 2 ^ -53`. Scaled by it, a total near one loses more than half a
unit, so the product is rounded to a smaller number than the total (`nearest_scaled_lt`), and every
double of `[0, 1)` has a choice from every rule (`picksPositive_of_inUnit_float`).
-/

namespace SeededArt

open Arithmetic SeededArt.Random SeededArt.Valuation RoundedArithmetic Float.Model.UnpackedFloat

section Rounded

variable {α β : Type} [Arithmetic α] [RoundedArithmetic α] {weight : β → α} {items : List β}
  {item : β} {u t : α}

theorem scaled_mem_interval (hu : isFinite u = true) (hunit : InUnit u) (ht : IsWeight t) :
    isFinite (u * t) = true ∧ 0 ≤ value (u * t) ∧ value (u * t) ≤ value t := by
  obtain ⟨h0, h1⟩ := (inUnit_iff_of_finite hu).1 hunit
  have hnonneg : 0 ≤ round α (value u * value t) := round_nonneg (mul_nonneg h0 ht.2)
  have hle : round α (value u * value t) ≤ value t := by
    calc round α (value u * value t) ≤ round α (value t) :=
          round_mono (mul_le_of_le_one_left ht.2 h1.le)
      _ = value t := round_value t ht.1
  have hrounds := mul_rounds u t hu ht.1
  have hfin : isFinite (u * t) = true := by
    refine hrounds.finite_of_abs_le ht.1 ?_
    rw [abs_of_nonneg hnonneg, abs_of_nonneg ht.2]
    exact hle
  rw [hrounds.value_eq hfin]
  exact ⟨hfin, hnonneg, hle⟩

theorem isWeight_total {ws : List α} (hw : ∀ w ∈ ws, IsWeight w)
    (hs : isFinite (total ws) = true) : IsWeight (total ws) := by
  obtain ⟨hempty, hvempty⟩ := emptySum_finite (α := α)
  refine ⟨hs, ?_⟩
  rw [← hvempty]
  exact le_sum hw hempty hs

/-- What a draw of the unit interval chooses has a positive weight. -/
theorem pos_of_choose (hw : ∀ i ∈ items, IsWeight (weight i))
    (hs : isFinite (total (items.map weight)) = true) (hu : isFinite u = true) (hunit : InUnit u)
    (h : choose weight items u = .ok item) : 0 < value (weight item) := by
  have hw' : ∀ w ∈ items.map weight, IsWeight w := by simpa using hw
  obtain ⟨h0, hv0⟩ := zero_finite (α := α)
  obtain ⟨hempty, hvempty⟩ := emptySum_finite (α := α)
  obtain ⟨hfin, hnonneg, -⟩ := scaled_mem_interval hu hunit (isWeight_total hw' hs)
  obtain ⟨hsum, -⟩ := sum_congr hw' hempty h0 (by rw [hvempty, hv0]) hs
  exact pos_of_firstAbove hw h0 hsum hfin (by rwa [hv0]) (firstAbove_of_choose h)

theorem Grammar.choosesPositive_of_isFinite (g : Grammar α) :
    g.ChoosesPositive fun u => isFinite u = true ∧ InUnit u := by
  rintro r hr u ⟨hu, hunit⟩ a h
  have hw := isWeight_of_fault? (g.faultless r hr)
  obtain ⟨hs, -⟩ := total_of_fault? (g.faultless r hr)
  rw [zero_less_iff (hw a (mem_of_choose h)).1]
  exact pos_of_choose hw hs hu hunit h

end Rounded

/-! ## Doubles -/

/-- Every double of the unit interval is finite: the order leaves out what is no number, and the
bounds leave out the infinities. -/
theorem isFinite_of_inUnit {u : Float} (h : InUnit u) : isFinite u = true := by
  obtain ⟨hlow, hhigh⟩ := h
  have hzero : (0.0 : Float).toModel.unpack = .zero .positive := rfl
  have hone : (1.0 : Float).toModel.unpack = .finite .positive (2 ^ 52) (-52) (by decide) := rfl
  rw [less_eq, hzero] at hlow
  rw [less_eq, hone] at hhigh
  rw [isFinite_eq]
  generalize u.toModel.unpack = x at hlow hhigh
  cases x with
  | notANumber => cases hhigh
  | infinity s =>
    cases s with
    | negative => cases hlow
    | positive => cases hhigh
  | zero => rfl
  | finite => rfl

theorem Grammar.choosesPositive_of_inUnit (g : Grammar Float) : g.ChoosesPositive InUnit := by
  intro r hr u hu
  exact g.choosesPositive_of_isFinite r hr u ⟨isFinite_of_inUnit hu, hu⟩

/-- The greatest double below one is `1 - 2 ^ -53`. -/
theorem value_le_of_inUnit {u : Float} (h : InUnit u) : value u ≤ 1 - 1 / 2 ^ 53 := by
  have hfin := isFinite_of_inUnit h
  obtain ⟨-, hlt⟩ := (inUnit_iff_of_finite hfin).1 h
  rcases le_or_gt (1 / 2) (value u) with hhalf | hsmall
  · obtain ⟨k, hk⟩ := exists_grid hfin hhalf
    rw [hk] at hlt ⊢
    have hk : (k : ℚ) < 2 ^ 53 := by
      norm_num at hlt ⊢
      linarith
    have hk : k < 2 ^ 53 := by exact_mod_cast hk
    have hk : (k : ℚ) ≤ 2 ^ 53 - 1 := by exact_mod_cast Int.le_sub_one_of_lt hk
    norm_num at hk ⊢
    linarith
  · norm_num at hsmall ⊢
    linarith

/-- Scaled by the greatest double below one, a total is rounded down. -/
theorem nearest_scaled_lt {t : ℚ} (ht : 1 / 2 ≤ t) : nearest ((1 - 1 / 2 ^ 53) * t) < t := by
  generalize hq : (1 - 1 / 2 ^ 53) * t = q
  have hquarter : 2 ^ (-2 : ℤ) ≤ q := by
    rw [← hq]
    norm_num
    linarith
  have hpos : 0 < q := lt_of_lt_of_le (two_zpow_pos _) hquarter
  have hnormal : 2 ^ (-1022 : ℤ) ≤ q :=
    le_trans (zpow_le_zpow_right₀ one_le_two (by norm_num)) hquarter
  have hunit : 2 ^ unitExponent .binary64 q * 2 ^ 52 ≤ q := by
    have h : 2 ^ (unitExponent .binary64 q + 52) ≤ q := unit_le (f := .binary64) hnormal
    rw [zpow_add₀ two_ne_zero] at h
    exact_mod_cast h
  calc nearest q = nearestMagnitude .binary64 q := nearest_of_pos hpos
    _ ≤ q + 2 ^ unitExponent .binary64 q / 2 := nearestMagnitude_le_add _ q
    _ ≤ q + q / 2 ^ 53 := by
      norm_num at hunit ⊢
      linarith
    _ < t := by
      rw [← hq]
      norm_num
      linarith

theorem scaled_lt_of_inUnit {u t : Float} (hu : InUnit u) (ht : IsWeight t)
    (hnear : |value t - 1| ≤ 1 / 2 ^ 28) : value (u * t) < value t := by
  have hfin := isFinite_of_inUnit hu
  have hhalf : 1 / 2 ≤ value t := by
    have := (abs_le.1 hnear).1
    norm_num at this ⊢
    linarith
  have hscaled := (scaled_mem_interval hfin hu ht).1
  calc value (u * t) = nearest (value u * value t) := (mul_rounds u t hfin ht.1).value_eq hscaled
    _ ≤ nearest ((1 - 1 / 2 ^ 53) * value t) :=
      nearest_mono (mul_le_mul_of_nonneg_right (value_le_of_inUnit hu) ht.2)
    _ < value t := nearest_scaled_lt hhalf

/-- Every double of the unit interval has a choice from every rule, of positive weight. -/
theorem Grammar.picksPositive_of_inUnit_float (g : Grammar Float) : g.PicksPositive InUnit := by
  intro r hr u hu
  have hfault := g.faultless r hr
  have hw := isWeight_of_fault? hfault
  obtain ⟨hs, hnear⟩ := total_of_fault? hfault
  have htotal : IsWeight r.total := isWeight_total (by simpa using hw) hs
  have hfin := isFinite_of_inUnit hu
  obtain ⟨hscaled, hnonneg, -⟩ := scaled_mem_interval hfin hu htotal
  obtain ⟨a, ha, hchoose, hpos⟩ := choose_eq_ok_of_lt (ne_nil_of_fault? hfault) hw hs hscaled
    hnonneg (scaled_lt_of_inUnit hu htotal hnear)
  exact ⟨a, ha, hchoose, (zero_less_iff (hw a ha).1).2 hpos⟩

end SeededArt
