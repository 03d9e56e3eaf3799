import Mathlib.Logic.Relation
import SeededArt.Grammar.Graph
/-!
# What the search of a graph visits

The search takes names from an agenda. A name whose entry is still pending is expanded: its entry is
taken out, and the names that it refers to go on the agenda. So a name is visited if a path of
pending references leads to it from the agenda (`RuleGraph.mem_visit`): a path through the expanded
name can be cut after the last time it passes there, and what is left needs the other entries only
(`RuleGraph.reaches_without`).

In the graph of rules, a name refers to the arguments of all alternatives of the rules of that name
(`RuleGraph.mem_references_ofRules`).
-/

namespace SeededArt

open Text Relation

namespace RuleGraph

variable {g h : RuleGraph} {entries : List (String × List String)} {rule name x : String}
  {targets names : List String}

def Refers (g : RuleGraph) (name target : String) : Prop := target ∈ g.references name

/-- A path of references leads from a name to another one. -/
def Reaches (g : RuleGraph) : String → String → Prop := ReflTransGen g.Refers

/-! ## Entries -/

@[simp] theorem references_nil (name : String) : references ⟨[]⟩ name = [] := rfl

@[simp] theorem references_cons (name : String) :
    references ⟨(rule, targets) :: entries⟩ name =
      if rule = name then targets else references ⟨entries⟩ name := by
  unfold references
  by_cases hname : rule = name
  · rw [if_pos hname, List.find?_cons_of_pos (by simpa using hname)]
  · rw [if_neg hname, List.find?_cons_of_neg (by simpa using hname)]

theorem references_of_find? (hfind : entries.find? (·.1 == rule) = some (name, targets)) :
    references ⟨entries⟩ rule = targets := by
  unfold references
  rw [hfind]

theorem references_of_notMem (hname : name ∉ entries.map (·.1)) :
    references ⟨entries⟩ name = [] := by
  induction entries with
  | nil => rfl
  | cons entry entries ih =>
    rw [List.map_cons, List.mem_cons, not_or] at hname
    rw [references_cons, if_neg (Ne.symm hname.1), ih hname.2]

theorem references_eraseP (hnodup : (entries.map (·.1)).Nodup) (rule name : String) :
    references ⟨entries.eraseP (·.1 == rule)⟩ name =
      if name = rule then [] else references ⟨entries⟩ name := by
  induction entries with
  | nil => simp
  | cons entry entries ih =>
    obtain ⟨first, targets⟩ := entry
    obtain ⟨hfirst, hnodup⟩ := List.nodup_cons.1 hnodup
    by_cases heq : first = rule
    · subst heq
      rw [List.eraseP_cons_of_pos (by simp)]
      split
      next hname => rw [hname, references_of_notMem hfirst]
      next hname => rw [references_cons, if_neg (Ne.symm hname)]
    · rw [List.eraseP_cons_of_neg (by simpa using heq), references_cons, references_cons,
        ih hnodup]
      split
      next hname => rw [if_neg (hname ▸ heq)]
      next => rfl

/-! ## The search -/

theorem Reaches.refl (g : RuleGraph) (name : String) : g.Reaches name name := ReflTransGen.refl

/-- A name that refers to nothing leads to itself only. -/
theorem eq_of_reaches (hnone : g.references name = []) (hreach : g.Reaches name x) : x = name := by
  rcases ReflTransGen.cases_head hreach with rfl | ⟨target, htarget, -⟩
  · rfl
  · rw [Refers, hnone] at htarget
    exact absurd htarget List.not_mem_nil

/-- A path leads to a name, or past it last of all, or not past it. -/
theorem reaches_without
    (hwithout : ∀ name, h.references name = if name = rule then [] else g.references name)
    (hreach : g.Reaches name x) :
    x = rule ∨ h.Reaches name x ∨ ∃ target ∈ g.references rule, h.Reaches target x := by
  induction hreach using ReflTransGen.head_induction_on with
  | refl => exact .inr (.inl (Reaches.refl h x))
  | @head name target htarget _ ih =>
    rcases ih with heq | hreach | hlast
    · exact .inl heq
    · by_cases hname : name = rule
      · exact .inr (.inr ⟨target, hname ▸ htarget, hreach⟩)
      · refine .inr (.inl (ReflTransGen.head ?_ hreach))
        rw [Refers, hwithout, if_neg hname]
        exact htarget
    · exact .inr (.inr hlast)

/-- What a name and an agenda lead to is the name, and what its references and the agenda lead to
without it. -/
theorem reaches_cons_iff
    (hwithout : ∀ name, h.references name = if name = rule then [] else g.references name) :
    (∃ name ∈ rule :: names, g.Reaches name x) ↔
      x = rule ∨ ∃ name ∈ g.references rule ++ names, h.Reaches name x := by
  have hmono : ∀ {name}, h.Reaches name x → g.Reaches name x := by
    refine fun {name} => ReflTransGen.mono (fun a b hab => ?_) name x
    rw [Refers, hwithout] at hab
    split at hab
    next => exact absurd hab List.not_mem_nil
    next => exact hab
  constructor
  · rintro ⟨name, hname, hreach⟩
    rcases reaches_without hwithout hreach with heq | hpath | ⟨target, htarget, hpath⟩
    · exact .inl heq
    · rcases List.mem_cons.1 hname with rfl | hname
      · exact .inl (eq_of_reaches (by rw [hwithout, if_pos rfl]) hpath)
      · exact .inr ⟨name, List.mem_append_right _ hname, hpath⟩
    · exact .inr ⟨target, List.mem_append_left _ htarget, hpath⟩
  · rintro (rfl | ⟨name, hname, hpath⟩)
    · exact ⟨x, List.mem_cons_self, Reaches.refl g x⟩
    · rcases List.mem_append.1 hname with hname | hname
      · exact ⟨rule, List.mem_cons_self, ReflTransGen.head hname (hmono hpath)⟩
      · exact ⟨name, List.mem_cons_of_mem rule hname, hmono hpath⟩

/-- The search adds what pending references lead to from the agenda. -/
theorem mem_visit {pending : List (String × List String)} {agenda seen : List String}
    (hnodup : (pending.map (·.1)).Nodup) :
    x ∈ visit pending agenda seen ↔
      x ∈ seen ∨ ∃ name ∈ agenda, Reaches ⟨pending⟩ name x := by
  fun_induction visit pending agenda seen with
  | case1 => simp
  | case2 pending seen rule agenda name targets hfind ih =>
    have herased : ((pending.eraseP (·.1 == rule)).map (·.1)).Nodup :=
      ((List.eraseP_sublist).map _).nodup hnodup
    rw [ih herased, reaches_cons_iff (references_eraseP hnodup rule), mem_insertName,
      references_of_find? hfind]
    exact or_assoc.trans or_left_comm
  | case3 pending seen rule agenda hfind ih =>
    have hnone : references ⟨pending⟩ rule = [] := by
      unfold references
      rw [hfind]
    rw [ih hnodup, mem_insertName]
    simp only [List.mem_cons, exists_eq_or_imp]
    have hrule : Reaches ⟨pending⟩ rule x ↔ x = rule :=
      ⟨eq_of_reaches hnone, fun heq => heq ▸ Reaches.refl _ _⟩
    rw [hrule]
    exact or_assoc.trans or_left_comm

/-- A name is reachable if a path of references leads to it. -/
theorem mem_reachable (hnodup : (g.entries.map (·.1)).Nodup) :
    x ∈ g.reachable name ↔ g.Reaches name x := by
  unfold reachable
  rw [mem_visit hnodup]
  simp

/-- Names that no entry is about are reached too. -/
example : reachable ⟨[("A", ["B"]), ("B", ["A", "C"])]⟩ "A" = ["A", "B", "C"] := by
  cbv

/-! ## The graph of rules -/

theorem mem_foldr_insertName : x ∈ names.foldr insertName targets ↔ x ∈ names ∨ x ∈ targets := by
  induction names with
  | nil => simp
  | cons name names ih => rw [List.foldr_cons, mem_insertName, ih, List.mem_cons, or_assoc]

theorem mem_references_refer :
    x ∈ references ⟨refer rule targets entries⟩ name ↔
      name = rule ∧ x ∈ targets ∨ x ∈ references ⟨entries⟩ name := by
  induction entries with
  | nil =>
    rw [refer, references_cons]
    split
    next hname => simp [hname]
    next hname => simp [Ne.symm hname]
  | cons entry entries ih =>
    obtain ⟨first, known⟩ := entry
    rw [refer]
    by_cases heq : first = rule
    · subst heq
      rw [if_pos (by simp), references_cons, references_cons]
      split
      next hname => simp [hname, mem_foldr_insertName]
      next hname => simp [Ne.symm hname]
    · rw [if_neg (by simpa using heq), references_cons, references_cons]
      split
      next hname => simp [← hname, heq]
      next => exact ih

theorem map_refer (rule : String) (targets : List String)
    (entries : List (String × List String)) :
    (refer rule targets entries).map (·.1) =
      if rule ∈ entries.map (·.1) then entries.map (·.1) else entries.map (·.1) ++ [rule] := by
  induction entries with
  | nil => rfl
  | cons entry entries ih =>
    obtain ⟨first, known⟩ := entry
    rw [refer]
    by_cases heq : first = rule
    · subst heq
      simp
    · rw [if_neg (by simpa using heq), List.map_cons, List.map_cons, ih]
      simp only [List.mem_cons, Ne.symm heq, false_or]
      split <;> rfl

theorem nodup_refer (hnodup : (entries.map (·.1)).Nodup) (rule : String) (targets : List String) :
    ((refer rule targets entries).map (·.1)).Nodup := by
  rw [map_refer]
  split
  next => exact hnodup
  next hnew =>
    rw [List.nodup_append]
    refine ⟨hnodup, by simp, fun name hname other hother heq => hnew ?_⟩
    rwa [← List.mem_singleton.1 hother, ← heq]

section Rules

variable {α : Type} {rules : List (Rule α)}

theorem nodup_foldl_refer (hnodup : (g.entries.map (·.1)).Nodup) :
    ((rules.foldl (fun g r =>
      ⟨refer r.name (r.alternatives.flatMap (·.arguments)) g.entries⟩) g).entries.map
        (·.1)).Nodup := by
  induction rules generalizing g with
  | nil => exact hnodup
  | cons r rules ih => exact ih (nodup_refer hnodup r.name (r.alternatives.flatMap (·.arguments)))

theorem mem_references_foldl_refer :
    x ∈ (rules.foldl (fun g r =>
      ⟨refer r.name (r.alternatives.flatMap (·.arguments)) g.entries⟩) g).references name ↔
        (∃ r ∈ rules, r.name = name ∧ ∃ a ∈ r.alternatives, x ∈ a.arguments) ∨
          x ∈ g.references name := by
  induction rules generalizing g with
  | nil => simp
  | cons r rules ih =>
    rw [List.foldl_cons, ih, mem_references_refer, List.mem_flatMap, ← or_assoc,
      eq_comm (a := name)]
    simp only [List.mem_cons, exists_eq_or_imp]
    exact or_congr_left or_comm

theorem nodup_ofRules (rules : List (Rule α)) : ((ofRules rules).entries.map (·.1)).Nodup :=
  nodup_foldl_refer (g := {}) List.nodup_nil

theorem mem_references_ofRules :
    x ∈ (ofRules rules).references name ↔
      ∃ r ∈ rules, r.name = name ∧ ∃ a ∈ r.alternatives, x ∈ a.arguments := by
  unfold ofRules
  rw [mem_references_foldl_refer]
  simp

end Rules

end RuleGraph

end SeededArt
