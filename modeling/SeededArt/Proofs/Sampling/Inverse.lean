import Mathlib.Data.List.FinRange
import Mathlib.Order.Interval.Set.Disjoint
import SeededArt.Error
import SeededArt.Proofs.Sampling.Exact
/-!
# Weighted choice as an inverted distribution

Over exact numbers a draw `u` chooses the item at whose place the scaled draw lies between the
running sums before and after it (`place_eq_ok_iff`). So an item is chosen by a half-open interval
of draws, its share (`share_eq`), whose length is the item's part of the total (`length_share`). The
shares follow each other in the order of the items (`lt_of_mem_share`) and make up `[0, 1)`
(`iUnion_share`). A draw of one or more chooses nothing (`choose_of_one_le`).

What is said of places holds of a choice among the places themselves (`choose_eq_place`), so equal
items at different places are told apart.
-/

namespace SeededArt

open Arithmetic SeededArt.Random SeededArt.Valuation RoundedArithmetic ExactArithmetic

/-! ## Choosing a place -/

section Places

variable {α β γ : Type} [Arithmetic α]

theorem firstAbove_map (weight : β → α) (f : γ → β) (target sum : α) (items : List γ) :
    firstAbove weight target sum (items.map f) =
      (firstAbove (fun i => weight (f i)) target sum items).map f := by
  induction items generalizing sum with
  | nil => rfl
  | cons item items ih =>
    rw [List.map_cons, firstAbove, firstAbove]
    split
    next => rfl
    next => exact ih _

/-- A choice depends on the weights alone. -/
theorem choose_map (weight : β → α) (f : γ → β) (items : List γ) (u : α) :
    choose weight (items.map f) u = (choose (fun i => weight (f i)) items u).map f := by
  simp only [choose, firstAbove_map, List.map_map, List.length_map, Function.comp_def]
  cases firstAbove (fun i => weight (f i)) (u * total (items.map fun i => weight (f i))) 0.0 items
  <;> rfl

/-- The place of the item that a draw chooses. -/
def place (weight : β → α) (items : List β) (u : α) :
    Except (NothingChosen α) (Fin items.length) :=
  choose (fun i : Fin items.length => weight items[i]) (List.finRange items.length) u

theorem choose_eq_place (weight : β → α) (items : List β) (u : α) :
    choose weight items u = (place weight items u).map fun i => items[i] := by
  conv_lhs => rw [← List.map_getElem_finRange items]
  exact choose_map weight (fun i : Fin items.length => items[i]) _ u

theorem pick_eq_place {σ : Type} [Source σ α] (weight : β → α) (items : List β) (s : σ) :
    pick weight items s =
      match place weight items (Source.next s : α × σ).1 with
      | .ok i => .ok items[i] (Source.next s : α × σ).2
      | .error cause => .error cause (Source.next s : α × σ).2 := by
  rw [pick_eq, choose_eq_place]
  cases place weight items (Source.next s : α × σ).1 <;> rfl

end Places

variable {α β : Type} [Arithmetic α] [ExactArithmetic α] {weight : β → α} {items : List β}
  {u v : α}

/-! ## Running sums -/

/-- The weights of so many first items. -/
def sumBefore (weight : β → α) (items : List β) (k : ℕ) : ℚ := values weight (items.take k)

theorem sumBefore_zero (weight : β → α) (items : List β) : sumBefore weight items 0 = 0 := rfl

theorem sumBefore_length (weight : β → α) (items : List β) :
    sumBefore weight items items.length = values weight items := by
  rw [sumBefore, List.take_length]

theorem sumBefore_succ (weight : β → α) (items : List β) (i : Fin items.length) :
    sumBefore weight items (i + 1) = sumBefore weight items i + value (weight items[i]) := by
  unfold sumBefore
  rw [List.take_add_one, values_append]
  simp [values]

theorem monotone_sumBefore (hw : ∀ i ∈ items, 0 ≤ value (weight i)) :
    Monotone (sumBefore weight items) := by
  refine monotone_nat_of_le_succ fun k => ?_
  by_cases hk : k < items.length
  · have hsucc := sumBefore_succ weight items ⟨k, hk⟩
    have hnonneg := hw _ (List.getElem_mem hk)
    simp only [Fin.getElem_fin] at hsucc
    linarith
  · unfold sumBefore
    rw [List.take_of_length_le (Nat.le_of_not_lt hk),
      List.take_of_length_le (Nat.le_succ_of_le (Nat.le_of_not_lt hk))]

/-! ## Where the search stops -/

/-- Where the search stops, the target lies between two running sums. -/
theorem between_of_firstAbove {item : β} {target sum : α} (hsum : value sum ≤ value target)
    (h : firstAbove weight target sum items = some item) :
    ∃ before after, items = before ++ item :: after ∧
      value sum + values weight before ≤ value target ∧
      value target < value sum + values weight before + value (weight item) := by
  induction items generalizing sum with
  | nil => cases h
  | cons first items ih =>
    rw [firstAbove] at h
    split at h
    next hless =>
      cases h
      rw [less_iff_value, value_add] at hless
      exact ⟨[], items, rfl, by simpa [values] using hsum, by simpa [values] using hless⟩
    next hless =>
      rw [less_iff_value, not_lt] at hless
      obtain ⟨before, after, rfl, hlow, hhigh⟩ := ih hless h
      rw [value_add] at hlow hhigh
      refine ⟨first :: before, after, rfl, ?_, ?_⟩
      · rwa [values_cons, ← add_assoc]
      · rwa [values_cons, ← add_assoc]

/-! ## Shares of the unit interval -/

theorem values_map {γ : Type} (weight : β → α) (f : γ → β) (items : List γ) :
    values weight (items.map f) = values (fun i => weight (f i)) items := by
  rw [values, values, List.map_map]
  rfl

theorem values_take_finRange (weight : β → α) (items : List β) (k : ℕ) :
    values (fun i : Fin items.length => weight items[i]) ((List.finRange items.length).take k) =
      sumBefore weight items k := by
  rw [← values_map weight fun i : Fin items.length => items[i], List.map_take]
  exact congrArg (fun l => values weight (l.take k)) (List.map_getElem_finRange items)

theorem value_total_finRange (weight : β → α) (items : List β) :
    value (total ((List.finRange items.length).map fun i : Fin items.length => weight items[i])) =
      values weight items := by
  have htake := values_take_finRange weight items items.length
  rw [List.take_of_length_le (by rw [List.length_finRange]), sumBefore_length] at htake
  rw [value_total, htake]

theorem finRange_eq_append {n : ℕ} (i : Fin n) :
    List.finRange n = (List.finRange n).take i ++ i :: (List.finRange n).drop (i + 1) := by
  have hlt : (i : ℕ) < (List.finRange n).length := by
    rw [List.length_finRange]
    exact i.isLt
  have hget : (List.finRange n)[(i : ℕ)] = i := List.getElem_finRange hlt
  conv_lhs => rw [← List.take_append_drop i (List.finRange n), List.drop_eq_getElem_cons hlt, hget]

theorem eq_take_of_finRange_eq {n : ℕ} {i : Fin n} {before after : List (Fin n)}
    (h : List.finRange n = before ++ i :: after) : before = (List.finRange n).take i := by
  have hget : (List.finRange n)[before.length]? = some i := by
    rw [h, List.getElem?_append_right (Nat.le_refl _), Nat.sub_self, List.getElem?_cons_zero]
  obtain ⟨hlt, heq⟩ := List.getElem?_eq_some_iff.1 hget
  rw [List.getElem_finRange] at heq
  have hlength : before.length = i := congrArg Fin.val heq
  rw [← hlength, h, List.take_left]

/-- The place chosen is the one whose running sums lie around the scaled draw. -/
theorem place_eq_ok_iff (hw : ∀ i ∈ items, 0 ≤ value (weight i)) (hu : 0 ≤ value u)
    {i : Fin items.length} : place weight items u = .ok i ↔
      sumBefore weight items i ≤ value u * values weight items ∧
        value u * values weight items < sumBefore weight items (i + 1) := by
  have hzero : value (0.0 : α) = 0 := zero_finite.2
  have htarget : value (u * total ((List.finRange items.length).map fun i : Fin items.length =>
      weight items[i])) = value u * values weight items := by
    rw [value_mul, value_total_finRange]
  have hnonneg : 0 ≤ value u * values weight items :=
    mul_nonneg hu (values_nonneg fun i hi => isWeight_iff.2 (hw i hi))
  rw [sumBefore_succ]
  constructor
  · intro h
    obtain ⟨before, after, hplaces, hlow, hhigh⟩ :=
      between_of_firstAbove (by rwa [htarget, hzero]) (firstAbove_of_choose h)
    rw [htarget, hzero, zero_add, eq_take_of_finRange_eq hplaces, values_take_finRange]
      at hlow hhigh
    exact ⟨hlow, hhigh⟩
  · rintro ⟨hlow, hhigh⟩
    have hstops : ∀ target : α, value target = value u * values weight items →
        firstAbove (fun i : Fin items.length => weight items[i]) target 0.0
          (List.finRange items.length) = some i := by
      intro target htarget
      rw [finRange_eq_append i]
      refine firstAbove_of_between (fun j _ => isWeight_iff.2 (hw _ (List.getElem_mem j.isLt)))
        ?_ ?_
      · rwa [htarget, hzero, zero_add, values_take_finRange]
      · rwa [htarget, hzero, zero_add, values_take_finRange]
    unfold place choose
    simp only [hstops _ htarget]

/-- The draws that are scaled to between the running sums before and after a place. -/
def share (weight : β → α) (items : List β) (i : Fin items.length) : Set ℚ :=
  {q | sumBefore weight items i ≤ q * values weight items ∧
    q * values weight items < sumBefore weight items (i + 1)}

theorem share_eq (htotal : 0 < values weight items) (i : Fin items.length) :
    share weight items i = Set.Ico (sumBefore weight items i / values weight items)
      (sumBefore weight items (i + 1) / values weight items) := by
  ext q
  unfold share
  rw [Set.mem_ofPred_eq, Set.mem_Ico, div_le_iff₀ htotal, lt_div_iff₀ htotal]

/-- The length of a share is the item's part of the total. -/
theorem length_share (weight : β → α) (items : List β) (i : Fin items.length) :
    sumBefore weight items (i + 1) / values weight items -
        sumBefore weight items i / values weight items =
      value (weight items[i]) / values weight items := by
  rw [← sub_div, sumBefore_succ, add_sub_cancel_left]

section Weights

variable (hw : ∀ i ∈ items, 0 ≤ value (weight i)) (htotal : 0 < values weight items)
include hw htotal

/-- Shares follow each other in the order of the items. -/
theorem lt_of_mem_share {i j : Fin items.length} (hij : i < j) {p q : ℚ}
    (hp : p ∈ share weight items i) (hq : q ∈ share weight items j) : p < q := by
  refine lt_of_mul_lt_mul_right ?_ htotal.le
  calc p * values weight items < sumBefore weight items (i + 1) := hp.2
    _ ≤ sumBefore weight items j := monotone_sumBefore hw (Nat.succ_le_of_lt hij)
    _ ≤ q * values weight items := hq.1

theorem eq_of_mem_share {i j : Fin items.length} {q : ℚ} (hi : q ∈ share weight items i)
    (hj : q ∈ share weight items j) : i = j := by
  rcases lt_trichotomy i j with hij | hij | hij
  · exact absurd (lt_of_mem_share hw htotal hij hi hj) (lt_irrefl q)
  · exact hij
  · exact absurd (lt_of_mem_share hw htotal hij hj hi) (lt_irrefl q)

theorem mem_unit_of_mem_share {i : Fin items.length} {q : ℚ} (hq : q ∈ share weight items i) :
    0 ≤ q ∧ q < 1 := by
  obtain ⟨hlow, hhigh⟩ := hq
  have hfirst := monotone_sumBefore hw (Nat.zero_le (i : ℕ))
  have hlast := monotone_sumBefore hw (Nat.succ_le_of_lt i.isLt)
  rw [sumBefore_zero] at hfirst
  rw [sumBefore_length] at hlast
  constructor
  · exact nonneg_of_mul_nonneg_left (hfirst.trans hlow) htotal
  · exact lt_of_mul_lt_mul_right (by linarith) htotal.le

omit htotal in
theorem place_eq_ok_iff_mem_share (hu : InUnit u) {i : Fin items.length} :
    place weight items u = .ok i ↔ value u ∈ share weight items i :=
  place_eq_ok_iff hw (inUnit_iff.1 hu).1

theorem exists_place (hu : InUnit u) : ∃ i, place weight items u = .ok i := by
  rw [← value_total_finRange] at htotal
  obtain ⟨i, -, hi, -⟩ := choose_of_inUnit
    (fun i _ => isWeight_iff.2 (hw _ (List.getElem_mem i.isLt))) htotal hu
  exact ⟨i, hi⟩

theorem iUnion_share : ⋃ i, share weight items i = Set.Ico 0 1 := by
  ext q
  rw [Set.mem_iUnion, Set.mem_Ico]
  constructor
  · rintro ⟨i, hi⟩
    exact mem_unit_of_mem_share hw htotal hi
  · rintro ⟨h0, h1⟩
    obtain ⟨u, hu, rfl⟩ := exists_inUnit (α := α) h0 h1
    obtain ⟨i, hi⟩ := exists_place hw htotal hu
    exact ⟨i, (place_eq_ok_iff_mem_share hw hu).1 hi⟩

theorem existsUnique_mem_share (hu : InUnit u) : ∃! i, value u ∈ share weight items i := by
  obtain ⟨i, hi⟩ := exists_place hw htotal hu
  have hmem := (place_eq_ok_iff_mem_share hw hu).1 hi
  exact ⟨i, hmem, fun j hj => eq_of_mem_share hw htotal hj hmem⟩

theorem place_mono (hu : InUnit u) (hv : InUnit v) (huv : value u ≤ value v)
    {i j : Fin items.length} (hi : place weight items u = .ok i)
    (hj : place weight items v = .ok j) : i ≤ j := by
  rw [place_eq_ok_iff_mem_share hw hu] at hi
  rw [place_eq_ok_iff_mem_share hw hv] at hj
  by_contra hlt
  exact absurd huv (not_le.2 (lt_of_mem_share hw htotal (not_le.1 hlt) hj hi))

end Weights

/-! ## Scaled weights -/

section Scale

variable {weight' : β → α} {c : ℚ}

theorem values_scale (hscale : ∀ i ∈ items, value (weight' i) = c * value (weight i)) :
    values weight' items = c * values weight items := by
  induction items with
  | nil => simp [values]
  | cons item items ih =>
    obtain ⟨hitem, hitems⟩ := List.forall_mem_cons.1 hscale
    rw [values_cons, values_cons, hitem, ih hitems]
    ring

theorem share_scale (hc : 0 < c) (hscale : ∀ i ∈ items, value (weight' i) = c * value (weight i))
    (i : Fin items.length) : share weight' items i = share weight items i := by
  have hsum (k : ℕ) : sumBefore weight' items k = c * sumBefore weight items k :=
    values_scale fun i hi => hscale i (List.mem_of_mem_take hi)
  ext q
  unfold share
  rw [Set.mem_ofPred_eq, Set.mem_ofPred_eq, hsum, hsum, values_scale hscale, mul_left_comm,
    mul_le_mul_iff_of_pos_left hc, mul_lt_mul_iff_of_pos_left hc]

theorem place_scale (hw : ∀ i ∈ items, 0 ≤ value (weight i)) (htotal : 0 < values weight items)
    (hc : 0 < c) (hscale : ∀ i ∈ items, value (weight' i) = c * value (weight i))
    (hu : InUnit u) : place weight' items u = place weight items u := by
  have hw' : ∀ i ∈ items, 0 ≤ value (weight' i) := by
    intro i hi
    rw [hscale i hi]
    exact mul_nonneg hc.le (hw i hi)
  obtain ⟨i, hi⟩ := exists_place hw htotal hu
  rw [hi, place_eq_ok_iff_mem_share hw' hu, share_scale hc hscale,
    ← place_eq_ok_iff_mem_share hw hu]
  exact hi

end Scale

/-! ## Draws that choose nothing -/

/-- No running sum exceeds the total. -/
theorem choose_of_one_le (hw : ∀ i ∈ items, 0 ≤ value (weight i)) (hu : 1 ≤ value u) :
    choose weight items u =
      .error ⟨items.length, u * total (items.map weight), total (items.map weight)⟩ := by
  have htotal : 0 ≤ values weight items := values_nonneg fun i hi => isWeight_iff.2 (hw i hi)
  have htarget : values weight items ≤ value (u * total (items.map weight)) := by
    rw [value_mul, value_total]
    exact le_mul_of_one_le_left htotal hu
  have hzero : value (0.0 : α) = 0 := zero_finite.2
  cases hfirst : firstAbove weight (u * total (items.map weight)) 0.0 items with
  | none => simp only [choose, hfirst]
  | some item =>
    obtain ⟨before, after, rfl, -, hhigh⟩ := between_of_firstAbove (by linarith) hfirst
    have hafter : 0 ≤ values weight after :=
      values_nonneg fun i hi => isWeight_iff.2 (hw i (by simp [hi]))
    rw [values_append, values_cons] at htarget
    linarith

theorem pick_of_one_le {σ : Type} [Source σ α] (hw : ∀ i ∈ items, 0 ≤ value (weight i)) {s : σ}
    (hs : 1 ≤ value (Source.next s : α × σ).1) :
    ∃ cause, pick weight items s = .error cause (Source.next s : α × σ).2 := by
  rw [pick_eq, choose_of_one_le hw hs]
  exact ⟨_, rfl⟩

/-- Among items with weights that are not all zero, one draw chooses a place, and of the draws from
zero to one each place is chosen by those of its share. The shares are half-open intervals as long
as the parts of the items in the total; they follow each other in the order of the items and make
up the unit interval. So greater draws choose no earlier places, and only the proportions of the
weights matter. Draws of one or more, and all draws from no items, are reported as a broken
invariant. -/
theorem pick_inverts_sums {σ ε : Type} [Source σ α] (hw : ∀ i ∈ items, 0 ≤ value (weight i))
    (htotal : 0 < values weight items) :
    (∀ s : σ, pick weight items s =
        match place weight items (Source.next s : α × σ).1 with
        | .ok i => .ok items[i] (Source.next s : α × σ).2
        | .error cause => .error cause (Source.next s : α × σ).2) ∧
      (∀ u : α, InUnit u → (∃! i, value u ∈ share weight items i) ∧
        ∀ i, place weight items u = .ok i ↔ value u ∈ share weight items i) ∧
      (∀ i, share weight items i = Set.Ico (sumBefore weight items i / values weight items)
          (sumBefore weight items (i + 1) / values weight items) ∧
        sumBefore weight items (i + 1) / values weight items -
            sumBefore weight items i / values weight items =
          value (weight items[i]) / values weight items) ∧
      (⋃ i, share weight items i = Set.Ico 0 1 ∧
        ∀ i j, i < j → ∀ p ∈ share weight items i, ∀ q ∈ share weight items j, p < q) ∧
      (∀ u v : α, InUnit u → InUnit v → value u ≤ value v → ∀ i j,
        place weight items u = .ok i → place weight items v = .ok j → i ≤ j) ∧
      (∀ (weight' : β → α) (c : ℚ), 0 < c →
        (∀ i ∈ items, value (weight' i) = c * value (weight i)) →
          ∀ u : α, InUnit u → place weight' items u = place weight items u) ∧
      (∀ s : σ, 1 ≤ value (Source.next s : α × σ).1 →
        ∃ cause, pick weight items s = .error cause (Source.next s : α × σ).2 ∧
          (Error.synthesis (.nothingChosen cause) : Error α ε).kind = .invariant) ∧
      ∀ s : σ, ∃ cause, pick weight [] s = .error cause (Source.next s : α × σ).2 ∧
        (Error.synthesis (.nothingChosen cause) : Error α ε).kind = .invariant := by
  refine ⟨pick_eq_place weight items, fun u hu => ⟨existsUnique_mem_share hw htotal hu, fun i =>
      place_eq_ok_iff_mem_share hw hu⟩, fun i => ⟨share_eq htotal i, length_share weight items i⟩,
    ⟨iUnion_share hw htotal, fun i j hij p hp q hq => lt_of_mem_share hw htotal hij hp hq⟩,
    fun u v hu hv huv i j hi hj => place_mono hw htotal hu hv huv hi hj,
    fun weight' c hc hscale u hu => place_scale hw htotal hc hscale hu, fun s hs => ?_,
    fun s => ⟨_, pick_eq weight [] s, rfl⟩⟩
  obtain ⟨cause, hcause⟩ := pick_of_one_le hw hs
  exact ⟨cause, hcause, rfl⟩

/-- Letters with weights of zero at both ends and in between. -/
def gappedLetters : List (Char × ℚ) :=
  [('a', 0), ('b', 1 / 4), ('c', 0), ('d', 1 / 2), ('e', 0)]

/-- A third of the total is the running sum after the second weight: the draw chooses the fourth. -/
theorem pick_inverts_sums_gapped :
    (∀ letter ∈ gappedLetters, 0 ≤ value letter.2) ∧ 0 < values Prod.snd gappedLetters ∧
      place Prod.snd gappedLetters (1 / 3 : ℚ) = .ok (3 : Fin 5) ∧
      pick Prod.snd gappedLetters (Stream'.const (1 / 3 : ℚ)) =
        (.ok ('d', 1 / 2) (Stream'.const (1 / 3)) :
          EStateM.Result (NothingChosen ℚ) (Stream' ℚ) (Char × ℚ)) := by
  have hw : ∀ letter ∈ gappedLetters, 0 ≤ value letter.2 := by decide +kernel
  have htotal : 0 < values Prod.snd gappedLetters := by decide +kernel
  obtain ⟨hpick, hplace, -⟩ :=
    pick_inverts_sums (σ := Stream' ℚ) (ε := Empty) hw htotal
  have hunit : InUnit (1 / 3 : ℚ) := inUnit_iff.2 (by decide +kernel)
  have hshare : value (1 / 3 : ℚ) ∈ share Prod.snd gappedLetters (3 : Fin 5) :=
    ⟨by decide +kernel, by decide +kernel⟩
  have hthird := ((hplace _ hunit).2 _).2 hshare
  refine ⟨hw, htotal, hthird, ?_⟩
  have hnext : (Source.next (Stream'.const (1 / 3 : ℚ)) : ℚ × Stream' ℚ) =
    (1 / 3, Stream'.const (1 / 3)) := rfl
  rw [hpick, hnext]
  simp only [hthird]
  rfl

end SeededArt
