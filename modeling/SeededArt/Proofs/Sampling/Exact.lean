import SeededArt.Proofs.Grammar.Soundness
import SeededArt.Proofs.Numbers.Exact
/-!
# Weighted choice without rounding

Over exact numbers every draw of `[0, 1)` chooses an alternative of positive weight
(`picksPositive_of_inUnit`), and every alternative of positive weight is chosen by such a draw: the
running sum before it, over the total (`exists_choose_eq`).
-/

namespace SeededArt

open Arithmetic SeededArt.Random SeededArt.Valuation RoundedArithmetic ExactArithmetic

variable {α : Type} [Arithmetic α] [ExactArithmetic α]

theorem inUnit_iff {u : α} : InUnit u ↔ 0 ≤ value u ∧ value u < 1 :=
  inUnit_iff_of_finite (finite u)

theorem isWeight_iff {w : α} : IsWeight w ↔ 0 ≤ value w := and_iff_right (finite w)

theorem exists_inUnit {q : ℚ} (h0 : 0 ≤ q) (h1 : q < 1) : ∃ u : α, InUnit u ∧ value u = q := by
  obtain ⟨u, rfl⟩ := exists_value (α := α) q
  exact ⟨u, inUnit_iff.2 ⟨h0, h1⟩, rfl⟩

section Items

variable {β : Type} {weight : β → α} {items before after : List β} {item : β} {target sum u : α}

/-- The exact total of the weights. -/
def values (weight : β → α) (items : List β) : ℚ := (items.map fun i => value (weight i)).sum

theorem values_cons (weight : β → α) (item : β) (items : List β) :
    values weight (item :: items) = value (weight item) + values weight items := by
  simp [values]

theorem values_append (weight : β → α) (before after : List β) :
    values weight (before ++ after) = values weight before + values weight after := by
  simp [values]

theorem values_nonneg (hw : ∀ i ∈ items, IsWeight (weight i)) : 0 ≤ values weight items := by
  refine List.sum_nonneg ?_
  rw [List.forall_mem_map]
  exact fun i hi => (hw i hi).2

theorem value_sum (weight : β → α) (items : List β) (sum : α) :
    value ((items.map weight).foldl (· + ·) sum) = value sum + values weight items := by
  induction items generalizing sum with
  | nil => simp [values]
  | cons item items ih =>
    rw [List.map_cons, List.foldl_cons, ih, value_add, values_cons]
    ring

theorem value_total (weight : β → α) (items : List β) :
    value (total (items.map weight)) = values weight items := by
  rw [total, value_sum, emptySum_finite.2, zero_add]

/-- A draw of the unit interval chooses an item of positive weight if the total is positive. -/
theorem choose_of_inUnit (hw : ∀ i ∈ items, IsWeight (weight i))
    (htotal : 0 < value (total (items.map weight))) (hu : InUnit u) :
    ∃ item ∈ items, choose weight items u = .ok item ∧ 0 < value (weight item) := by
  obtain ⟨h0, h1⟩ := inUnit_iff.1 hu
  have hne : items ≠ [] := by
    rintro rfl
    rw [List.map_nil, total, List.foldl_nil, emptySum_finite.2] at htotal
    exact lt_irrefl 0 htotal
  refine choose_eq_ok_of_lt hne hw (finite _) (finite _) ?_ ?_
  · rw [value_mul]
    positivity
  · rw [value_mul]
    exact mul_lt_of_lt_one_left htotal h1

/-- The search stops at the item around which the running sums enclose the target. -/
theorem firstAbove_of_between (hw : ∀ i ∈ before, IsWeight (weight i))
    (hlow : value sum + values weight before ≤ value target)
    (hhigh : value target < value sum + values weight before + value (weight item)) :
    firstAbove weight target sum (before ++ item :: after) = some item := by
  induction before generalizing sum with
  | nil =>
    have hless : less target (sum + weight item) = true := by
      rw [less_iff_value, value_add]
      simpa [values] using hhigh
    rw [List.nil_append, firstAbove, if_pos hless]
  | cons first before ih =>
    obtain ⟨-, hbefore⟩ := List.forall_mem_cons.1 hw
    have hrest : 0 ≤ values weight before := values_nonneg hbefore
    rw [values_cons, ← add_assoc] at hlow hhigh
    have hless : ¬less target (sum + weight first) = true := by
      rw [less_iff_value, value_add]
      linarith
    rw [List.cons_append, firstAbove, if_neg hless]
    exact ih hbefore (by rwa [value_add]) (by rwa [value_add])

/-- Every item of positive weight is chosen by a draw of the unit interval. -/
theorem exists_choose_eq (hw : ∀ i ∈ items, IsWeight (weight i)) (hitem : item ∈ items)
    (hpos : 0 < value (weight item)) : ∃ u : α, InUnit u ∧ choose weight items u = .ok item := by
  obtain ⟨before, after, rfl⟩ := List.append_of_mem hitem
  simp only [List.forall_mem_append, List.forall_mem_cons] at hw
  obtain ⟨hbefore, hitem, hafter⟩ := hw
  have h0 : 0 ≤ values weight before := values_nonneg hbefore
  have h1 : 0 ≤ values weight after := values_nonneg hafter
  -- the draw that scales to the running sum before the item
  have hlt : values weight before / (values weight before + (value (weight item) +
      values weight after)) < 1 := by
    rw [div_lt_one (by linarith)]
    linarith
  obtain ⟨u, hu, hvalue⟩ := exists_inUnit (α := α) (by positivity) hlt
  refine ⟨u, hu, ?_⟩
  have htarget : value (u * total ((before ++ item :: after).map weight)) =
      value (0.0 : α) + values weight before := by
    rw [value_mul, hvalue, value_total, zero_finite.2, values_append, values_cons]
    field_simp
    ring
  rw [choose, firstAbove_of_between hbefore htarget.ge (htarget ▸ lt_add_of_pos_right _ hpos)]

end Items

theorem Grammar.picksPositive_of_inUnit (g : Grammar α) : g.PicksPositive InUnit := by
  intro r hr u hu
  obtain ⟨-, hnear⟩ := total_of_fault? (g.faultless r hr)
  have htotal : 0 < value r.total := by
    have := (abs_le.1 hnear).1
    norm_num at this
    linarith
  have hw := isWeight_of_fault? (g.faultless r hr)
  obtain ⟨a, ha, hchoose, hpos⟩ := choose_of_inUnit hw htotal hu
  exact ⟨a, ha, hchoose, (zero_less_iff (finite _)).2 hpos⟩

theorem Grammar.exists_choose_alternative {g : Grammar α} {r : Rule α} {a : Alternative α}
    (hr : r ∈ g.rules) (ha : a ∈ r.alternatives) (hpos : less 0.0 a.weight = true) :
    ∃ u : α, InUnit u ∧ choose (·.weight) r.alternatives u = .ok a := by
  rw [zero_less_iff (finite _)] at hpos
  exact exists_choose_eq (isWeight_of_fault? (g.faultless r hr)) ha hpos

end SeededArt
