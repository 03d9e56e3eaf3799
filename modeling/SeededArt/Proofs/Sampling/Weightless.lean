import SeededArt.Proofs.Sampling.Unit
/-!
# Items without weight

Items that weigh nothing can be left out of a weighted choice. Adding a zero of either sign leaves
the value of a sum alone, so the total and all running sums keep their values (`sum_filter`), and
with them the scaled draw. As the scaled draw is never below a running sum at which the search goes
on, no item is chosen where the running sum does not grow (`firstAbove_filter`). What a draw of the
unit interval chooses is so chosen without those items too (`choose_filter`).
-/

namespace SeededArt

open Arithmetic SeededArt.Random SeededArt.Valuation RoundedArithmetic

section Weightless

variable {α β : Type} [Arithmetic α] [RoundedArithmetic α] {weight : β → α} {items : List β}
  {keep : β → Bool} {item : β} {x y z u target target' : α}

theorem value_add_zero (hx : isFinite x = true) (hz : isFinite z = true) (hzero : value z = 0) :
    isFinite (x + z) = true ∧ value (x + z) = value x := by
  have hrounds := add_rounds x z hx hz
  have hround : round α (value x + value z) = value x := by
    rw [hzero, add_zero, round_value x hx]
  have hfin : isFinite (x + z) = true := hrounds.finite_of_abs_le hx (by rw [hround])
  exact ⟨hfin, (hrounds.value_eq hfin).trans hround⟩

/-- Adding a number to sums of one value gives sums of one value. -/
theorem value_add_congr (hx : isFinite x = true) (hy : isFinite y = true)
    (hxy : value y = value x) (hz : isFinite z = true) (hsum : isFinite (x + z) = true) :
    isFinite (y + z) = true ∧ value (y + z) = value (x + z) := by
  have hrounds := add_rounds y z hy hz
  rw [hxy] at hrounds
  exact (add_rounds x z hx hz).congr hrounds hsum

/-- Some items are kept, and the others weigh nothing. -/
structure OnlyDropsZeros (weight : β → α) (keep : β → Bool) (items : List β) : Prop where
  isWeight : ∀ i ∈ items, IsWeight (weight i)
  zero : ∀ i ∈ items, keep i = false → value (weight i) = 0

theorem OnlyDropsZeros.tail {first : β} {rest : List β}
    (h : OnlyDropsZeros weight keep (first :: rest)) : OnlyDropsZeros weight keep rest :=
  ⟨fun i hi => h.isWeight i (List.mem_cons_of_mem first hi),
    fun i hi => h.zero i (List.mem_cons_of_mem first hi)⟩

theorem OnlyDropsZeros.isWeight_map (h : OnlyDropsZeros weight keep items) :
    ∀ w ∈ items.map weight, IsWeight w := by
  rw [List.forall_mem_map]
  exact h.isWeight

theorem sum_filter (h : OnlyDropsZeros weight keep items) (hx : isFinite x = true)
    (hy : isFinite y = true) (hxy : value y = value x)
    (hs : isFinite ((items.map weight).foldl (· + ·) x) = true) :
    isFinite (((items.filter keep).map weight).foldl (· + ·) y) = true ∧
      value (((items.filter keep).map weight).foldl (· + ·) y) =
        value ((items.map weight).foldl (· + ·) x) := by
  induction items generalizing x y with
  | nil => exact ⟨hy, hxy⟩
  | cons first rest ih =>
    have hfin : isFinite (x + weight first) = true :=
      finite_of_finite_sum h.isWeight_map hx hs
    have hfirst := (h.isWeight first List.mem_cons_self).1
    cases hkeep : keep first with
    | false =>
      rw [List.filter_cons_of_neg (by simp [hkeep])]
      obtain ⟨-, hsame⟩ := value_add_zero hx hfirst (h.zero first List.mem_cons_self hkeep)
      exact ih h.tail hfin hy (hxy.trans hsame.symm) hs
    | true =>
      rw [List.filter_cons_of_pos hkeep]
      obtain ⟨hfin', hsame⟩ := value_add_congr hx hy hxy hfirst hfin
      exact ih h.tail hfin hfin' hsame hs

/-- The searches through all items and through those that are kept stop at the same item. -/
theorem firstAbove_filter (h : OnlyDropsZeros weight keep items) (hx : isFinite x = true)
    (hy : isFinite y = true) (hxy : value y = value x)
    (hs : isFinite ((items.map weight).foldl (· + ·) x) = true) (ht : isFinite target = true)
    (ht' : isFinite target' = true) (htarget : value target' = value target)
    (hle : value x ≤ value target) :
    firstAbove weight target' y (items.filter keep) = firstAbove weight target x items := by
  induction items generalizing x y with
  | nil => rfl
  | cons first rest ih =>
    have hfin : isFinite (x + weight first) = true :=
      finite_of_finite_sum h.isWeight_map hx hs
    have hfirst := (h.isWeight first List.mem_cons_self).1
    rw [firstAbove]
    cases hkeep : keep first with
    | false =>
      rw [List.filter_cons_of_neg (by simp [hkeep])]
      obtain ⟨-, hsame⟩ := value_add_zero hx hfirst (h.zero first List.mem_cons_self hkeep)
      have hless : less target (x + weight first) = false := by
        rw [less_eq_false_iff ht hfin, hsame]
        exact hle
      simp only [hless, Bool.false_eq_true, if_false]
      exact ih h.tail hfin hy (hxy.trans hsame.symm) hs (hsame ▸ hle)
    | true =>
      rw [List.filter_cons_of_pos hkeep, firstAbove]
      obtain ⟨hfin', hsame⟩ := value_add_congr hx hy hxy hfirst hfin
      have hless : less target' (y + weight first) = less target (x + weight first) := by
        rw [Bool.eq_iff_iff, less_iff _ _ ht' hfin', less_iff _ _ ht hfin, htarget, hsame]
      simp only [hless]
      split
      next => rfl
      next hnot =>
        rw [Bool.not_eq_true, less_eq_false_iff ht hfin] at hnot
        exact ih h.tail hfin hfin' hsame hs hnot

theorem total_filter (h : OnlyDropsZeros weight keep items)
    (hs : isFinite (total (items.map weight)) = true) :
    isFinite (total ((items.filter keep).map weight)) = true ∧
      value (total ((items.filter keep).map weight)) = value (total (items.map weight)) :=
  sum_filter h emptySum_finite.1 emptySum_finite.1 rfl hs

theorem choose_filter (h : OnlyDropsZeros weight keep items)
    (hs : isFinite (total (items.map weight)) = true) (hu : isFinite u = true) (hunit : InUnit u)
    (hchoose : choose weight items u = .ok item) :
    choose weight (items.filter keep) u = .ok item := by
  obtain ⟨h0, hv0⟩ := zero_finite (α := α)
  obtain ⟨hempty, hvempty⟩ := emptySum_finite (α := α)
  obtain ⟨hscaled, hnonneg, -⟩ :=
    scaled_mem_interval hu hunit (isWeight_total h.isWeight_map hs)
  obtain ⟨hs', hsame⟩ := total_filter h hs
  obtain ⟨hscaled', htarget⟩ :
      isFinite (u * total ((items.filter keep).map weight)) = true ∧
        value (u * total ((items.filter keep).map weight)) =
          value (u * total (items.map weight)) := by
    have hrounds := mul_rounds u (total ((items.filter keep).map weight)) hu hs'
    rw [hsame] at hrounds
    exact (mul_rounds u (total (items.map weight)) hu hs).congr hrounds hscaled
  obtain ⟨hsum, -⟩ := sum_congr h.isWeight_map hempty h0 (by rw [hvempty, hv0]) hs
  have hfirst := firstAbove_filter h h0 h0 rfl hsum hscaled hscaled' htarget
    (by rwa [hv0])
  rw [firstAbove_of_choose hchoose] at hfirst
  rw [choose]
  simp only [hfirst]

end Weightless

end SeededArt
