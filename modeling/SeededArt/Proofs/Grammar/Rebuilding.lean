import SeededArt.Proofs.Grammar.Acceptance
/-!
# Building a grammar again from other rules

`Grammar.rebuildWith` adds rules one after another to a new draft with the name, the start symbol
and the fallback symbol of a grammar, and builds it. It succeeds for rules of distinct names that
are without a fault and fit together (`Grammar.exists_rebuildWith`), and the result has these rules
in their order (`Grammar.IsRebuilt`).
-/

namespace SeededArt

open Arithmetic

variable {α : Type} [Arithmetic α]

namespace Draft

variable {d : Draft α} {rules : List (Rule α)}

theorem addRules_cons (d : Draft α) (r : Rule α) (rules : List (Rule α)) :
    d.addRules (r :: rules) = d.addRule r >>= fun longer => longer.addRules rules := rfl

theorem exists_addRules (hnodup : ((d.rules ++ rules).map (·.name)).Nodup)
    (hfault : ∀ r ∈ rules, r.fault? d.name = none) :
    ∃ longer, d.addRules rules = .ok longer ∧ longer.name = d.name ∧ longer.start = d.start ∧
      longer.fallback = d.fallback ∧ longer.rules = d.rules ++ rules := by
  induction rules generalizing d with
  | nil => exact ⟨d, rfl, rfl, rfl, rfl, (List.append_nil _).symm⟩
  | cons r rules ih =>
    obtain ⟨hr, hrest⟩ := List.forall_mem_cons.1 hfault
    have hnew : d.has r.name = false := by
      rw [← Bool.not_eq_true, has_iff]
      intro hmem
      rw [List.map_append, List.nodup_append] at hnodup
      exact hnodup.2.2 _ hmem _ (List.mem_map_of_mem List.mem_cons_self) rfl
    obtain ⟨longer, hadd, hlonger⟩ := exists_addRule hnew hr
    obtain ⟨last, hlast, hname, hstart, hfallback, hrules⟩ := ih (d := longer)
      (by rwa [hlonger.rules_eq, List.append_assoc])
      (by rwa [hlonger.name_eq])
    refine ⟨last, ?_, hname.trans hlonger.name_eq, hstart.trans hlonger.start_eq,
      hfallback.trans hlonger.fallback_eq, ?_⟩
    · rw [addRules_cons, hadd]
      exact hlast
    · rw [hrules, hlonger.rules_eq, List.append_assoc]
      rfl

end Draft

namespace Grammar

variable {g : Grammar α} {rules : List (Rule α)}

/-- Builds a grammar with the name, the start symbol and the fallback symbol of another, and with
rules that are added one after another. -/
def rebuildWith (g : Grammar α) (rules : List (Rule α)) : Except (GrammarFault α) (Grammar α) := do
  (← (Draft.new g.name g.start g.fallback).addRules rules).build

/-- A grammar differs from another one in its rules only. -/
structure IsRebuilt (g : Grammar α) (rules : List (Rule α)) (h : Grammar α) : Prop where
  name_eq : h.name = g.name
  start_eq : h.start = g.start
  fallback_eq : h.fallback = g.fallback
  rules_eq : h.rules = rules

/-- Rules that pass all checks make a grammar. -/
theorem exists_rebuildWith (hnodup : (rules.map (·.name)).Nodup)
    (hfault : ∀ r ∈ rules, r.fault? g.name = none) (hstart : g.start ∈ rules.map (·.name))
    (hfallback : g.fallback ∈ rules.map (·.name))
    (harguments : ∀ r ∈ rules, ∀ a ∈ r.alternatives, ∀ argument ∈ a.arguments,
      argument ∈ rules.map (·.name))
    (hopen : ∀ r ∈ rules, r.name = g.fallback → ∀ a ∈ r.alternatives, a.arguments ≠ [] →
      less 0.0 a.weight = false) :
    ∃ h, g.rebuildWith rules = .ok h ∧ g.IsRebuilt rules h := by
  obtain ⟨d, hadd, hname, hdstart, hdfallback, hrules⟩ :=
    Draft.exists_addRules (d := Draft.new g.name g.start g.fallback) hnodup hfault
  change d.rules = rules at hrules
  have hsound : d.fault? = none := by
    rw [Draft.fault?_eq_none_iff, Draft.has_iff, Draft.has_iff, Draft.dangling?_eq_none_iff,
      Draft.openFallback?_eq_none_iff, hdstart, hdfallback, hrules]
    exact ⟨hstart, hfallback, harguments, hopen⟩
  refine ⟨{ d with sound := hsound }, ?_, hname, hdstart, hdfallback, hrules⟩
  unfold rebuildWith
  rw [hadd]
  exact Draft.build_eq_ok_iff.2 rfl

variable {h : Grammar α}

theorem IsRebuilt.rule?_fallback (hrebuilt : g.IsRebuilt rules h) :
    h.rule? g.fallback = some h.fallbackRule := by
  rw [← hrebuilt.fallback_eq]
  exact h.rule?_fallback

theorem IsRebuilt.fallbackRule_eq {r : Rule α} (hrebuilt : g.IsRebuilt rules h)
    (hrule : h.rule? g.fallback = some r) : h.fallbackRule = r :=
  Option.some.inj (hrebuilt.rule?_fallback.symm.trans hrule)

end Grammar

end SeededArt
