import SeededArt.Proofs.Sampling.Rounded
/-!
# What building a grammar establishes

The rules of a grammar fit together: the fallback rule is one of them, every argument of every
alternative names a rule (`has_of_mem_arguments`), and an alternative of the fallback rule that can
be chosen is a leaf (`isTerminal_of_fallback`). Each rule by itself has a choice for every draw of
a generator, of positive weight (`picksPositive_of_isWordFraction`).
-/

namespace SeededArt

open Arithmetic SeededArt.Random

variable {α : Type}

theorem Rule.mem_of_find? {rules : List (Rule α)} {name : String} {r : Rule α}
    (h : Rule.find? rules name = some r) : r ∈ rules :=
  List.mem_of_find?_eq_some h

variable [Arithmetic α]

theorem Draft.build_eq_ok_iff {d : Draft α} {g : Grammar α} : d.build = .ok g ↔ g.toDraft = d := by
  constructor
  · intro h
    unfold Draft.build at h
    split at h
    next => cases h
    next =>
      cases h
      rfl
  · rintro rfl
    unfold Draft.build
    split
    next h =>
      rw [g.sound] at h
      cases h
    next => rfl

theorem Draft.build_eq_error_iff {d : Draft α} {fault : GrammarFault α} :
    d.build = .error fault ↔ d.fault? = some fault := by
  unfold Draft.build
  split
  next other hother =>
    rw [hother, Option.some_inj]
    exact ⟨fun h => by cases h; rfl, fun h => by rw [h]⟩
  next hnone => simp [hnone]

theorem Draft.fault?_eq_none_iff {d : Draft α} :
    d.fault? = none ↔
      d.has d.start = true ∧ d.has d.fallback = true ∧ d.dangling? = none ∧
        d.openFallback? = none := by
  unfold Draft.fault?
  split
  next hstart => simp_all
  next hstart =>
    split
    next hfallback => simp_all
    next hfallback =>
      split
      next hdangling => simp [hdangling]
      next hdangling => simp_all

namespace Grammar

variable (g : Grammar α) {name : String} {r : Rule α} {a : Alternative α}

theorem rule?_fallback : g.rule? g.fallback = some g.fallbackRule := by
  unfold fallbackRule
  rw [Option.some_get]

theorem has_start : g.has g.start = true := (Draft.fault?_eq_none_iff.1 g.sound).1

theorem fallbackRule_mem : g.fallbackRule ∈ g.rules := Rule.mem_of_find? g.rule?_fallback

variable {g}

theorem mem_of_rule? (h : g.rule? name = some r) : r ∈ g.rules := Rule.mem_of_find? h

theorem exists_rule?_of_has (h : g.has name = true) : ∃ r, g.rule? name = some r := by
  rw [Draft.has, ← Rule.isSome_find?_eq, Option.isSome_iff_exists] at h
  exact h

/-- Every argument of every alternative names a rule. -/
theorem has_of_mem_arguments (hr : r ∈ g.rules) (ha : a ∈ r.alternatives)
    (h : name ∈ a.arguments) : g.has name = true := by
  have hd := (Draft.fault?_eq_none_iff.1 g.sound).2.2.1
  simp only [Draft.dangling?, List.findSome?_eq_none_iff, Option.map_eq_none_iff,
    List.find?_eq_none, Bool.not_eq_true', Bool.not_eq_false] at hd
  exact hd r hr a ha name h

/-- An alternative of the fallback rule that can be chosen is a leaf. -/
theorem isTerminal_of_fallback (ha : a ∈ g.fallbackRule.alternatives)
    (hpos : less 0.0 a.weight = true) : a.isTerminal = true := by
  have hopen := (Draft.fault?_eq_none_iff.1 g.sound).2.2.2
  have hrule : g.toDraft.rule? g.toDraft.fallback = some g.fallbackRule := g.rule?_fallback
  rw [Draft.openFallback?, hrule, Option.bind_some, List.find?_eq_none] at hopen
  simpa [hpos] using hopen a ha

/-- Every draw with the property has a choice from every rule, and one of positive weight. -/
def PicksPositive (g : Grammar α) (P : α → Prop) : Prop :=
  ∀ r ∈ g.rules, ∀ u, P u → ∃ a ∈ r.alternatives,
    choose (·.weight) r.alternatives u = .ok a ∧ less 0.0 a.weight = true

theorem PicksPositive.exists_pick {σ : Type} [Source σ α] {P : α → Prop} {s : σ}
    (hP : g.PicksPositive P) (hr : r ∈ g.rules) (hs : AllDraws P s) :
    ∃ a ∈ r.alternatives, pick (·.weight) r.alternatives s = .ok a (Source.next s : α × σ).2 ∧
      less 0.0 a.weight = true := by
  obtain ⟨a, ha, hchoose, hpos⟩ := hP r hr _ hs.head
  refine ⟨a, ha, ?_, hpos⟩
  rw [pick_eq]
  simp only [hchoose]

theorem PicksPositive.of_pick {σ : Type} [Source σ α] {P : α → Prop} {s s' : σ}
    (hP : g.PicksPositive P) (hr : r ∈ g.rules) (hs : AllDraws P s)
    (h : pick (·.weight) r.alternatives s = .ok a s') :
    a ∈ r.alternatives ∧ less 0.0 a.weight = true := by
  obtain ⟨b, hb, hpick, hpos⟩ := hP.exists_pick hr hs
  rw [hpick] at h
  cases h
  exact ⟨hb, hpos⟩

/-- Whatever a draw with the property chooses from a rule has a positive weight. -/
def ChoosesPositive (g : Grammar α) (P : α → Prop) : Prop :=
  ∀ r ∈ g.rules, ∀ u, P u → ∀ a, choose (·.weight) r.alternatives u = .ok a →
    less 0.0 a.weight = true

theorem PicksPositive.choosesPositive {P : α → Prop} (hP : g.PicksPositive P) :
    g.ChoosesPositive P := by
  intro r hr u hu a h
  obtain ⟨b, -, hchoose, hpos⟩ := hP r hr u hu
  rw [h] at hchoose
  cases hchoose
  exact hpos

theorem ChoosesPositive.of_pick {σ : Type} [Source σ α] {P : α → Prop} {s s' : σ}
    (hP : g.ChoosesPositive P) (hr : r ∈ g.rules) (hs : AllDraws P s)
    (h : pick (·.weight) r.alternatives s = .ok a s') : less 0.0 a.weight = true := by
  rw [pick_eq] at h
  split at h
  next hchoose =>
    cases h
    exact hP r hr _ hs.head a hchoose
  next => cases h

theorem picksPositive_of_isWordFraction [RoundedArithmetic α] (g : Grammar α) :
    g.PicksPositive IsWordFraction := by
  intro r hr _ hu
  exact choose_of_fault? (g.faultless r hr) hu

end Grammar

end SeededArt
