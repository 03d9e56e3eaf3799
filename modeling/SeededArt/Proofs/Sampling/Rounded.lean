import SeededArt.Grammar.Builtin
import SeededArt.Proofs.Numbers.Double
import SeededArt.Proofs.Random.Draws
import SeededArt.Sampling
/-!
# Weighted choice under rounding

The total of the weights and the running sum are two sums of the same numbers from starts that are
both zero, so the last running sum is the total itself (`sum_congr`). A scaled draw below the total
therefore always finds an item, and since an item without weight does not raise the running sum,
the item found has a positive weight (`choose_eq_ok_of_lt`).

The rules that a draft accepts have a total near one (`total_near_one`). There the greatest draw,
`1 - 2 ^ -32`, leaves a gap to the total that is wider than the spacing of representable numbers,
so that rounding cannot close it (`scaled_lt_total`).
-/

namespace SeededArt

open Arithmetic SeededArt.Random SeededArt.Valuation RoundedArithmetic

theorem pick_eq {σ α β : Type} [Arithmetic α] [Source σ α] (weight : β → α) (items : List β)
    (s : σ) :
    pick weight items s =
      match choose weight items (Source.next s : α × σ).1 with
      | .ok item => .ok item (Source.next s : α × σ).2
      | .error fault => .error fault (Source.next s : α × σ).2 := by
  simp only [pick, bind_apply, draw_apply]
  cases choose weight items (Source.next s : α × σ).1 <;> rfl

section Search

variable {α β : Type} [Arithmetic α] {weight : β → α} {items : List β} {item : β} {target sum : α}

theorem firstAbove_of_choose {u : α} (h : choose weight items u = .ok item) :
    firstAbove weight (u * total (items.map weight)) 0.0 items = some item := by
  rw [choose] at h
  split at h
  next hfirst =>
    cases h
    exact hfirst
  next => cases h

theorem mem_of_choose {u : α} (h : choose weight items u = .ok item) : item ∈ items :=
  mem_of_firstAbove (firstAbove_of_choose h)

theorem exists_firstAbove (hne : items ≠ [])
    (h : less target ((items.map weight).foldl (· + ·) sum) = true) :
    ∃ item, firstAbove weight target sum items = some item := by
  induction items generalizing sum with
  | nil => exact absurd rfl hne
  | cons first rest ih =>
    rw [List.map_cons, List.foldl_cons] at h
    by_cases hfirst : less target (sum + weight first) = true
    · exact ⟨first, by simp [firstAbove, hfirst]⟩
    · have hrest : rest ≠ [] := by
        rintro rfl
        exact hfirst h
      obtain ⟨item, hitem⟩ := ih hrest h
      exact ⟨item, by simpa [firstAbove, hfirst] using hitem⟩

variable [RoundedArithmetic α]

/-- The item at which a running sum first exceeds the target has raised it. -/
theorem pos_of_firstAbove (hw : ∀ i ∈ items, IsWeight (weight i)) (hsum : isFinite sum = true)
    (hs : isFinite ((items.map weight).foldl (· + ·) sum) = true)
    (ht : isFinite target = true) (hle : value sum ≤ value target)
    (h : firstAbove weight target sum items = some item) : 0 < value (weight item) := by
  induction items generalizing sum with
  | nil => simp [firstAbove] at h
  | cons first rest ih =>
    have hfirst := hw first List.mem_cons_self
    have hws : ∀ w ∈ weight first :: rest.map weight, IsWeight w := by
      simpa using And.intro hfirst fun i hi => hw i (List.mem_cons_of_mem _ hi)
    have hfin : isFinite (sum + weight first) = true := finite_of_finite_sum hws hsum hs
    simp only [firstAbove] at h
    split at h
    next hless =>
      obtain rfl : first = item := by simpa using h
      rw [less_iff _ _ ht hfin, (add_rounds _ _ hsum hfirst.1).value_eq hfin] at hless
      refine lt_of_le_of_ne hfirst.2 fun hzero => ?_
      -- without weight the running sum stays where it was, at most at the target
      rw [← hzero, add_zero, round_value _ hsum] at hless
      exact absurd hless (not_lt.2 hle)
    next hless =>
      rw [Bool.not_eq_true, less_eq_false_iff ht hfin] at hless
      exact ih (fun i hi => hw i (List.mem_cons_of_mem _ hi)) hfin hs hless h

/-- A scaled draw from zero to below the total chooses an item of positive weight. -/
theorem choose_eq_ok_of_lt {u : α} (hne : items ≠ []) (hw : ∀ i ∈ items, IsWeight (weight i))
    (hs : isFinite (total (items.map weight)) = true)
    (ht : isFinite (u * total (items.map weight)) = true)
    (hnonneg : 0 ≤ value (u * total (items.map weight)))
    (hlt : value (u * total (items.map weight)) < value (total (items.map weight))) :
    ∃ item ∈ items, choose weight items u = .ok item ∧ 0 < value (weight item) := by
  have hw' : ∀ w ∈ items.map weight, IsWeight w := by simpa using hw
  obtain ⟨h0, hv0⟩ := zero_finite (α := α)
  obtain ⟨hsum, hv⟩ := sum_congr hw' emptySum_finite.1 h0 (by rw [emptySum_finite.2, hv0]) hs
  obtain ⟨item, hitem⟩ : ∃ item, firstAbove weight (u * total (items.map weight)) 0.0 items =
      some item := by
    refine exists_firstAbove hne ?_
    rw [less_iff _ _ ht hsum, hv]
    exact hlt
  refine ⟨item, mem_of_firstAbove hitem, by simp [choose, hitem], ?_⟩
  exact pos_of_firstAbove hw h0 hsum ht (by rwa [hv0]) hitem

end Search

section Accepted

variable {α : Type} [Arithmetic α] {r : Rule α} {grammar : String}

theorem Rule.fault?_eq_none_iff :
    r.fault? grammar = none ↔
      r.alternatives ≠ [] ∧ (∀ a ∈ r.alternatives, a.hasGoodWeight = true) ∧
        isNearOne r.total = true := by
  unfold Rule.fault?
  split
  next hempty =>
    rw [List.isEmpty_iff] at hempty
    simp [hempty]
  next hempty =>
    rw [List.isEmpty_iff] at hempty
    split
    next bad hbad =>
      constructor
      · intro h
        cases h
      · rintro ⟨-, hgood, -⟩
        have := hgood bad (List.mem_of_find?_eq_some hbad)
        have := List.find?_some hbad
        simp_all
    next hgood =>
      simp only [List.find?_eq_none, Bool.not_eq_true', Bool.not_eq_false] at hgood
      split
      next hnear => exact ⟨fun _ => ⟨hempty, hgood, hnear⟩, fun _ => rfl⟩
      next hnear => simp [hnear]

theorem ne_nil_of_fault? (h : r.fault? grammar = none) : r.alternatives ≠ [] :=
  (Rule.fault?_eq_none_iff.1 h).1

theorem fault?_of_addRule {d : Draft α} (h : (d.addRule r).isOk = true) :
    r.fault? d.name = none := by
  unfold Draft.addRule at h
  split at h
  next => cases h
  next =>
    split at h
    next => cases h
    next hr => exact hr

variable [RoundedArithmetic α]

theorem hasGoodWeight_iff {a : Alternative α} : a.hasGoodWeight = true ↔ IsWeight a.weight := by
  unfold Alternative.hasGoodWeight IsWeight
  rw [Bool.and_eq_true, Bool.not_eq_true']
  exact and_congr_right less_zero_eq_false_iff

theorem isWeight_of_fault? (h : r.fault? grammar = none) :
    ∀ a ∈ r.alternatives, IsWeight a.weight := by
  intro a ha
  exact hasGoodWeight_iff.1 ((Rule.fault?_eq_none_iff.1 h).2.1 a ha)

theorem tolerance_le : value (weightTolerance : α) ≤ 1 / 2 ^ 29 := by
  have hr : Representable (1 / 2 ^ 29) := by
    have := representable_zpow (e := -29) (by norm_num)
    norm_num at this ⊢
    exact this
  calc value (weightTolerance : α) = round α (1 / 10 ^ 9) := tolerance_finite.2
    _ ≤ round α (1 / 2 ^ 29) := round_mono (by norm_num)
    _ = 1 / 2 ^ 29 := round_representable _ hr

/-- A number that rounding brings within the tolerance of zero is small itself. -/
theorem abs_le_of_abs_round_le {q : ℚ} (h : |round α q| ≤ value (weightTolerance : α)) :
    |q| ≤ 1 / 2 ^ 28 := by
  have hr : Representable (1 / 2 ^ 28) := by
    have := representable_zpow (e := -28) (by norm_num)
    norm_num at this ⊢
    exact this
  have htol := tolerance_le (α := α)
  by_contra hfar
  rcases le_abs.1 (le_of_lt (not_le.1 hfar)) with hq | hq
  · have : 1 / 2 ^ 28 ≤ round α q := by
      rw [← round_representable (α := α) _ hr]
      exact round_mono hq
    have := le_abs_self (round α q)
    norm_num at *
    linarith
  · have : round α q ≤ -(1 / 2 ^ 28) := by
      rw [← round_representable (α := α) _ hr.neg]
      exact round_mono (by linarith)
    have := neg_abs_le (round α q)
    norm_num at *
    linarith

/-- A total that a draft accepts is finite and lies near one. -/
theorem total_near_one {ws : List α} (hw : ∀ w ∈ ws, IsWeight w)
    (h : isNearOne (total ws) = true) :
    isFinite (total ws) = true ∧ |value (total ws) - 1| ≤ 1 / 2 ^ 28 := by
  obtain ⟨h1, hv1⟩ := one_finite (α := α)
  have htol : isFinite (weightTolerance : α) = true := tolerance_finite.1
  simp only [isNearOne, Bool.not_eq_true'] at h
  have far : ∀ x : α, IsInfinite x → less (weightTolerance : α) (magnitude x) = true := by
    intro x hx
    exact less_magnitude_of_infinite _ x hx htol
  have hs : isFinite (total ws) = true := by
    cases hs : isFinite (total ws) with
    | true => rfl
    | false =>
      have hinf : IsInfinite (total ws) := infinite_of_not_finite hw emptySum_finite.1 hs
      rw [far _ (sub_infinite _ _ hinf h1)] at h
      exact absurd h.symm Bool.false_ne_true
  refine ⟨hs, ?_⟩
  have hround := sub_rounds _ _ hs h1
  rcases hround.finite_or_infinite with hfin | hinf
  · obtain ⟨hm, hvm⟩ := magnitude_finite _ hfin
    rw [less_eq_false_iff htol hm, hvm, hround.value_eq hfin, hv1] at h
    exact abs_le_of_abs_round_le h
  · rw [far _ hinf] at h
    exact absurd h.symm Bool.false_ne_true

theorem total_of_fault? (h : r.fault? grammar = none) :
    isFinite r.total = true ∧ |value r.total - 1| ≤ 1 / 2 ^ 28 := by
  have hw : ∀ w ∈ r.alternatives.map (·.weight), IsWeight w := by
    simpa using isWeight_of_fault? h
  exact total_near_one hw (Rule.fault?_eq_none_iff.1 h).2.2

/-! ## Draws of a generator -/

theorem inUnit_iff_of_finite {u : α} (hu : isFinite u = true) :
    InUnit u ↔ 0 ≤ value u ∧ value u < 1 := by
  unfold InUnit
  rw [less_zero_eq_false_iff hu, less_iff u _ hu one_finite.1, one_finite.2]

/-- A draw that is a 32-bit word over `2 ^ 32`. -/
def IsWordFraction (u : α) : Prop :=
  isFinite u = true ∧ ∃ k : ℕ, k < 2 ^ 32 ∧ value u = k / 2 ^ 32

theorem isWordFraction_fraction (k : UInt32) : IsWordFraction (fraction k : α) :=
  ⟨(fraction_finite k).1, k.toNat, k.toNat_lt, (fraction_finite k).2⟩

theorem IsWordFraction.nonneg {u : α} (h : IsWordFraction u) : 0 ≤ value u := by
  obtain ⟨-, k, -, hk⟩ := h
  rw [hk]
  positivity

theorem IsWordFraction.le {u : α} (h : IsWordFraction u) : value u ≤ 1 - 1 / 2 ^ 32 := by
  obtain ⟨-, k, hlt, hk⟩ := h
  have hle : (k : ℚ) ≤ 2 ^ 32 - 1 := by
    have : k + 1 ≤ 2 ^ 32 := hlt
    have : (k : ℚ) + 1 ≤ 2 ^ 32 := by exact_mod_cast this
    linarith
  rw [hk, div_le_iff₀ (by positivity)]
  norm_num at hle ⊢
  linarith

theorem IsWordFraction.inUnit {u : α} (h : IsWordFraction u) : InUnit u := by
  rw [inUnit_iff_of_finite h.1]
  refine ⟨h.nonneg, ?_⟩
  have hle := h.le
  norm_num at hle ⊢
  linarith

/-- Scaled by a total near one, a generator's draw stays below the total. -/
theorem scaled_lt_total {u t : α} (hu : IsWordFraction u) (ht : isFinite t = true)
    (hnear : |value t - 1| ≤ 1 / 2 ^ 28) :
    isFinite (u * t) = true ∧ 0 ≤ value (u * t) ∧ value (u * t) < value t := by
  obtain ⟨hlow, hhigh⟩ := abs_le.1 hnear
  have hpos : 1 / 2 ≤ value t := by
    norm_num at hlow ⊢
    linarith
  have hnonneg : 0 ≤ value u * value t := mul_nonneg hu.nonneg (by linarith)
  have hgap : value u * value t + 1 / 2 ^ 52 ≤ value t := by
    calc value u * value t + 1 / 2 ^ 52
        ≤ (1 - 1 / 2 ^ 32) * value t + 1 / 2 ^ 52 := by gcongr; exact hu.le
      _ ≤ value t := by
        norm_num at hpos ⊢
        linarith
  obtain ⟨r, hr, hle, hlt⟩ := exists_representable_between hnonneg (by
    norm_num at hhigh ⊢
    linarith) hgap
  have hround : round α (value u * value t) < value t := by
    calc round α (value u * value t) ≤ round α r := round_mono hle
      _ = r := round_representable r hr
      _ < value t := hlt
  have hround0 := round_nonneg (α := α) hnonneg
  have hrounds := mul_rounds u t hu.1 ht
  have hfin : isFinite (u * t) = true := by
    refine hrounds.finite_of_abs_le ht ?_
    rw [abs_of_nonneg hround0, abs_of_nonneg (by linarith)]
    exact le_of_lt hround
  rw [hrounds.value_eq hfin]
  exact ⟨hfin, hround0, hround⟩

/-- From a rule without a fault a generator's draw chooses an alternative of positive weight. -/
theorem choose_of_fault? {u : α} (h : r.fault? grammar = none) (hu : IsWordFraction u) :
    ∃ a ∈ r.alternatives,
      choose (·.weight) r.alternatives u = .ok a ∧ less 0.0 a.weight = true := by
  have hw := isWeight_of_fault? h
  obtain ⟨hs, hnear⟩ := total_of_fault? h
  obtain ⟨hfin, hnonneg, hlt⟩ := scaled_lt_total hu hs hnear
  obtain ⟨a, ha, hchoose, hpos⟩ := choose_eq_ok_of_lt (ne_nil_of_fault? h) hw hs hfin hnonneg hlt
  refine ⟨a, ha, hchoose, ?_⟩
  exact (zero_less_iff (hw a ha).1).2 hpos

/-- From every rule that a draft accepts, every state of the generator chooses an alternative of
positive weight, with one draw. -/
theorem pick_ok_of_addRule {d : Draft α} (h : (d.addRule r).isOk = true) (m : Mulberry) :
    ∃ a ∈ r.alternatives,
      pick (·.weight) r.alternatives m = .ok a m.advance ∧ less 0.0 a.weight = true := by
  obtain ⟨a, ha, hchoose, hpos⟩ := choose_of_fault? (fault?_of_addRule h)
    (isWordFraction_fraction m.next.1)
  refine ⟨a, ha, ?_, hpos⟩
  have hdraw : (Source.next m : α × Mulberry) = (fraction m.next.1, m.advance) := rfl
  rw [pick_eq, hdraw]
  simp only [hchoose]

/-- Over doubles, with six weights that are none of them doubles. -/
theorem pick_ok_richLeaves :
    ((Draft.new (α := Float) "leaves").addRule Builtin.richLeaves).isOk = true ∧
      ∃ a ∈ Builtin.richLeaves.alternatives,
        pick (·.weight) Builtin.richLeaves.alternatives (Mulberry.mk 0) =
          .ok a (Mulberry.mk 0).advance ∧ less (0.0 : Float) a.weight = true := by
  have h : ((Draft.new (α := Float) "leaves").addRule Builtin.richLeaves).isOk = true := by
    decide +kernel
  exact ⟨h, pick_ok_of_addRule h (Mulberry.mk 0)⟩

end Accepted

end SeededArt
