import SeededArt.Proofs.Grammar.Reordering
/-!
# Search with a stack

A search takes names from a stack. A name that was not visited before is visited, and those of its
references that were not visited go on the stack, some of them perhaps a second time. Each round
takes one name from the stack, and a visit puts no more names there than the visited name refers
to, so the stack is empty after one round for the start and one for each reference
(`Search.stack_run`).

Every round keeps two facts: what was visited or is on the stack can be reached, and what a visited
name refers to was visited or is on the stack (`Search.IsSound.step`). So with an empty stack just
the reachable names were visited, those that `reachable` finds (`Search.run_ofStart`).
-/

namespace SeededArt

open Text Relation

namespace RuleGraph

variable {g : RuleGraph} {start rule x : String}

/-- The number of references in a graph. -/
def referenceCount (g : RuleGraph) : Nat := (g.entries.map (·.2.length)).sum

/-- A search under way. -/
structure Search where
  /-- The names that were visited. -/
  seen : List String
  /-- The names that are to be looked at, the next one first. -/
  stack : List String

namespace Search

variable {s : Search} {seen stack : List String}

/-- A search that is about to look at its first name. -/
def ofStart (start : String) : Search := ⟨[], [start]⟩

/-- Visits a name and puts those of its references on the stack that were not visited. The last of
them is the next one. -/
def visit (g : RuleGraph) (rule : String) (stack seen : List String) : Search :=
  let seen := insertName rule seen
  ⟨seen, ((g.references rule).filter (· ∉ seen)).reverse ++ stack⟩

/-- Takes a name from the stack and visits it, unless it was visited before. -/
def step (g : RuleGraph) (s : Search) : Search :=
  match s.stack with
  | [] => s
  | rule :: stack => if rule ∈ s.seen then ⟨s.seen, stack⟩ else visit g rule stack s.seen

def run (g : RuleGraph) (n : Nat) (s : Search) : Search := (step g)^[n] s

theorem step_of_stack_eq_nil (hstack : s.stack = []) : step g s = s := by
  unfold step
  rw [hstack]

theorem run_of_stack_eq_nil (hstack : s.stack = []) (n : Nat) : run g n s = s :=
  Function.iterate_fixed (step_of_stack_eq_nil hstack) n

theorem step_cons_of_mem (g : RuleGraph) (stack : List String) (hrule : rule ∈ seen) :
    step g ⟨seen, rule :: stack⟩ = ⟨seen, stack⟩ := if_pos hrule

theorem step_cons_of_notMem (g : RuleGraph) (stack : List String) (hrule : rule ∉ seen) :
    step g ⟨seen, rule :: stack⟩ = visit g rule stack seen := if_neg hrule

theorem mem_stack_visit : x ∈ (visit g rule stack seen).stack ↔
    (x ∈ g.references rule ∧ x ∉ (visit g rule stack seen).seen) ∨ x ∈ stack := by
  simp [visit]

theorem mem_seen_visit : x ∈ (visit g rule stack seen).seen ↔ x = rule ∨ x ∈ seen := by
  simp [visit]

/-! ## Number of rounds -/

/-- The number of references of the names that were not visited. -/
def ahead (seen : List String) : List (String × List String) → Nat
  | [] => 0
  | (name, targets) :: entries => (if name ∈ seen then 0 else targets.length) + ahead seen entries

/-- The rounds that are left at most: one for each name on the stack, and one for each that a visit
may put there. -/
def work (g : RuleGraph) (s : Search) : Nat := s.stack.length + ahead s.seen g.entries

theorem ahead_insertName (entries : List (String × List String)) (hrule : rule ∉ seen) :
    (references ⟨entries⟩ rule).length + ahead (insertName rule seen) entries ≤
      ahead seen entries := by
  induction entries with
  | nil => exact Nat.le_refl 0
  | cons entry entries ih =>
    obtain ⟨name, targets⟩ := entry
    rw [references_cons, ahead, ahead]
    by_cases hname : name = rule
    · subst hname
      rw [if_pos rfl, if_pos (mem_insertName.2 (.inl rfl)), if_neg hrule]
      omega
    · rw [if_neg hname]
      simp only [mem_insertName, hname, false_or]
      omega

theorem work_ofStart (g : RuleGraph) (start : String) :
    (ofStart start).work g = g.referenceCount + 1 := by
  have hahead (entries : List (String × List String)) :
      ahead [] entries = (entries.map (·.2.length)).sum := by
    induction entries with
    | nil => rfl
    | cons entry entries ih =>
      rw [ahead, if_neg List.not_mem_nil, ih, List.map_cons, List.sum_cons]
  unfold work ofStart referenceCount
  rw [hahead, List.length_singleton, Nat.add_comm]

/-- A round takes at least one from the work. -/
theorem work_step (hstack : s.stack ≠ []) : (step g s).work g < s.work g := by
  obtain ⟨seen, stack⟩ := s
  cases stack with
  | nil => exact absurd rfl hstack
  | cons rule stack =>
    by_cases hrule : rule ∈ seen
    · rw [step_cons_of_mem g stack hrule]
      simp only [work, List.length_cons]
      omega
    · rw [step_cons_of_notMem g stack hrule]
      have hahead : (g.references rule).length + ahead (insertName rule seen) g.entries ≤
          ahead seen g.entries := ahead_insertName g.entries hrule
      have hfilter : ((g.references rule).filter (· ∉ insertName rule seen)).length ≤
          (g.references rule).length := List.length_filter_le _ _
      simp only [work, visit, List.length_append, List.length_reverse, List.length_cons]
      omega

/-- As many rounds as there is work empty the stack. -/
theorem stack_run {n : Nat} (hn : s.work g ≤ n) : (run g n s).stack = [] := by
  induction n generalizing s with
  | zero =>
    refine List.eq_nil_of_length_eq_zero ?_
    unfold work at hn
    exact Nat.le_zero.1 (Nat.le_trans (Nat.le_add_right _ _) hn)
  | succ n ih =>
    by_cases hstack : s.stack = []
    · exact (congrArg stack (run_of_stack_eq_nil hstack (n + 1))).trans hstack
    · refine ih (Nat.le_of_lt_succ (Nat.lt_of_lt_of_le (work_step hstack) hn))

/-! ## What a search visits -/

/-- What holds in every round: what was visited or is on the stack can be reached, and what a
visited name refers to was visited or is on the stack. -/
structure IsSound (g : RuleGraph) (start : String) (s : Search) : Prop where
  ascending : s.seen.Pairwise Precedes
  reached : ∀ x, x ∈ s.seen ∨ x ∈ s.stack → g.Reaches start x
  covered : ∀ x ∈ s.seen, ∀ target, g.Refers x target → target ∈ s.seen ∨ target ∈ s.stack
  begun : start ∈ s.seen ∨ start ∈ s.stack

namespace IsSound

theorem ofStart (g : RuleGraph) (start : String) : IsSound g start (ofStart start) where
  ascending := List.Pairwise.nil
  reached x hx := by
    obtain rfl : x = start := by simpa [Search.ofStart] using hx
    exact Reaches.refl g x
  covered _ hx := absurd hx List.not_mem_nil
  begun := .inr List.mem_cons_self

theorem skip (h : IsSound g start ⟨seen, rule :: stack⟩) (hrule : rule ∈ seen) :
    IsSound g start ⟨seen, stack⟩ := by
  have hdrop : ∀ {x}, x ∈ seen ∨ x ∈ rule :: stack → x ∈ seen ∨ x ∈ stack := by
    rintro x (hx | hx)
    · exact .inl hx
    · rcases List.mem_cons.1 hx with rfl | hx
      · exact .inl hrule
      · exact .inr hx
  refine ⟨h.ascending, fun x hx => h.reached x (hx.imp_right (List.mem_cons_of_mem rule)),
    fun x hx target htarget => hdrop (h.covered x hx target htarget), hdrop h.begun⟩

theorem visit (h : IsSound g start ⟨seen, rule :: stack⟩) :
    IsSound g start (visit g rule stack seen) := by
  have hmoves : ∀ {x}, x ∈ seen ∨ x ∈ rule :: stack →
      x ∈ (Search.visit g rule stack seen).seen ∨ x ∈ (Search.visit g rule stack seen).stack := by
    rintro x (hx | hx)
    · exact .inl (mem_seen_visit.2 (.inr hx))
    · rcases List.mem_cons.1 hx with rfl | hx
      · exact .inl (mem_seen_visit.2 (.inl rfl))
      · exact .inr (mem_stack_visit.2 (.inr hx))
  have hrule : g.Reaches start rule := h.reached rule (.inr List.mem_cons_self)
  constructor
  case ascending => exact pairwise_insertName h.ascending
  case reached =>
    rintro x (hx | hx)
    · rcases mem_seen_visit.1 hx with rfl | hx
      · exact hrule
      · exact h.reached x (.inl hx)
    · rcases mem_stack_visit.1 hx with ⟨hx, -⟩ | hx
      · exact ReflTransGen.tail hrule hx
      · exact h.reached x (.inr (List.mem_cons_of_mem rule hx))
  case covered =>
    intro x hx target htarget
    rcases mem_seen_visit.1 hx with rfl | hx
    · by_cases hseen : target ∈ (Search.visit g x stack seen).seen
      · exact .inl hseen
      · exact .inr (mem_stack_visit.2 (.inl ⟨htarget, hseen⟩))
    · exact hmoves (h.covered x hx target htarget)
  case begun => exact hmoves h.begun

theorem step (h : IsSound g start s) : IsSound g start (step g s) := by
  obtain ⟨seen, stack⟩ := s
  cases stack with
  | nil => exact h
  | cons rule stack =>
    by_cases hrule : rule ∈ seen
    · rw [step_cons_of_mem g stack hrule]
      exact h.skip hrule
    · rw [step_cons_of_notMem g stack hrule]
      exact h.visit

theorem run (h : IsSound g start s) (n : Nat) : IsSound g start (run g n s) := by
  induction n generalizing s with
  | zero => exact h
  | succ n ih => exact ih h.step

/-- With an empty stack, exactly what can be reached was visited. -/
theorem mem_seen_iff (h : IsSound g start s) (hstack : s.stack = []) :
    x ∈ s.seen ↔ g.Reaches start x := by
  have hseen : ∀ {x}, x ∈ s.seen ∨ x ∈ s.stack → x ∈ s.seen := by
    intro x hx
    rw [hstack] at hx
    exact hx.resolve_right List.not_mem_nil
  refine ⟨fun hx => h.reached x (.inl hx), fun hreach => ?_⟩
  induction hreach with
  | refl => exact hseen h.begun
  | tail _ htarget ih => exact hseen (h.covered _ ih _ htarget)

end IsSound

/-- A search ends after one round for its start and one for each reference, with the names that are
reachable. -/
theorem run_ofStart (hnodup : (g.entries.map (·.1)).Nodup) (start : String) :
    run g (g.referenceCount + 1) (ofStart start) = ⟨g.reachable start, []⟩ := by
  have hstack : (run g (g.referenceCount + 1) (ofStart start)).stack = [] :=
    stack_run (by rw [work_ofStart])
  have hsound := (IsSound.ofStart g start).run (g.referenceCount + 1)
  have hseen : (run g (g.referenceCount + 1) (ofStart start)).seen = g.reachable start := by
    refine eq_of_pairwise_precedes hsound.ascending (pairwise_visit List.Pairwise.nil) fun x => ?_
    rw [hsound.mem_seen_iff hstack, mem_reachable hnodup]
  exact congrArg₂ mk hseen hstack

end Search

end RuleGraph

end SeededArt
