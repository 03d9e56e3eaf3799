import SeededArt.Lint.Checks
import SeededArt.Proofs.Grammar.Reachability
import SeededArt.Proofs.Grammar.Rebuilding
import SeededArt.Proofs.Synthesis.Agreement
/-!
# Rules that no expansion uses

The names that the start rule and the fallback rule lead to are closed under references
(`mem_expandable_of_mem_arguments`), and synthesis looks up no other rule. So the rules that are
found unreachable can be left out. The others make a grammar in which no rule is found unreachable
(`checkReachability_of_isRebuilt`), and which agrees with the first one on these names
(`agreeOn_of_isRebuilt`), so it synthesizes the same.
-/

namespace SeededArt

open Relation SeededArt.Random

namespace Lint

variable {α : Type} [Arithmetic α] {g h : Grammar α} {name other x : String} {r : Rule α}
  {a : Alternative α}

/-! ## Findings -/

/-- The finding that a rule is never expanded. -/
def unreachableRule (g : Grammar α) (name : String) : Diagnostic :=
  { severity := .warning
    code := .unreachableRule
    message := s!"Rule {name} in grammar {g.name} is never expanded"
    help := some s!"Reference it from {g.start} or remove it" }

theorem checkReachability_eq (g : Grammar α) :
    checkReachability g =
      (g.ruleNames.filter fun name => !(expandable g).contains name).map (unreachableRule g) := rfl

theorem unreachableRule_inj (hsame : unreachableRule g name = unreachableRule g other) :
    name = other := by
  have hmessage : toString name = toString other := by
    simpa [unreachableRule] using congrArg Diagnostic.message hsame
  exact hmessage

theorem unreachableRule_mem_iff :
    unreachableRule g name ∈ checkReachability g ↔ name ∈ g.ruleNames ∧ name ∉ expandable g := by
  rw [checkReachability_eq, List.mem_map]
  constructor
  · rintro ⟨other, hother, hsame⟩
    rw [unreachableRule_inj hsame] at hother
    simpa using hother
  · rintro ⟨hname, hunused⟩
    exact ⟨name, by simp [hname, hunused], rfl⟩

/-- The rules without such a finding. -/
def expandedRules (g : Grammar α) : List (Rule α) :=
  g.rules.filter fun r => unreachableRule g r.name ∉ checkReachability g

theorem mem_expandedRules : r ∈ expandedRules g ↔ r ∈ g.rules ∧ r.name ∈ expandable g := by
  unfold expandedRules
  rw [List.mem_filter, decide_eq_true_iff, unreachableRule_mem_iff]
  refine and_congr_right fun hr => ?_
  have hname : r.name ∈ g.ruleNames := List.mem_map_of_mem hr
  simp [hname]

/-! ## What the start rule and the fallback rule lead to -/

theorem mem_expandable :
    x ∈ expandable g ↔ g.graph.Reaches g.start x ∨ g.graph.Reaches g.fallback x := by
  have hnodup : (g.graph.entries.map (·.1)).Nodup := RuleGraph.nodup_ofRules g.rules
  unfold expandable
  rw [List.mem_append, RuleGraph.mem_reachable hnodup, RuleGraph.mem_reachable hnodup]

theorem start_mem_expandable (g : Grammar α) : g.start ∈ expandable g :=
  mem_expandable.2 (.inl (RuleGraph.Reaches.refl _ _))

theorem fallback_mem_expandable (g : Grammar α) : g.fallback ∈ expandable g :=
  mem_expandable.2 (.inr (RuleGraph.Reaches.refl _ _))

theorem mem_expandable_of_reaches (hname : name ∈ expandable g) (hpath : g.graph.Reaches name x) :
    x ∈ expandable g := by
  rw [mem_expandable] at hname ⊢
  exact hname.imp (fun hstart => hstart.trans hpath) (fun hfallback => hfallback.trans hpath)

theorem mem_expandable_of_mem_arguments (hr : r ∈ g.rules) (hname : r.name ∈ expandable g)
    (ha : a ∈ r.alternatives) (hx : x ∈ a.arguments) : x ∈ expandable g :=
  mem_expandable_of_reaches hname
    (ReflTransGen.single (RuleGraph.mem_references_ofRules.2 ⟨r, hr, rfl, a, ha, hx⟩))

theorem has_of_reaches (hname : g.has name = true) (hpath : g.graph.Reaches name x) :
    g.has x = true := by
  cases ReflTransGen.cases_tail hpath with
  | inl heq => rwa [heq]
  | inr hlast =>
    obtain ⟨last, -, hx⟩ := hlast
    obtain ⟨r, hr, -, a, ha, hx⟩ := RuleGraph.mem_references_ofRules.1 hx
    exact Grammar.has_of_mem_arguments hr ha hx

theorem mem_map_expandedRules : x ∈ (expandedRules g).map (·.name) ↔ x ∈ expandable g := by
  rw [List.mem_map]
  constructor
  · rintro ⟨r, hr, rfl⟩
    exact (mem_expandedRules.1 hr).2
  · intro hx
    have hhas : g.has x = true := by
      rcases mem_expandable.1 hx with hpath | hpath
      · exact has_of_reaches g.has_start hpath
      · exact has_of_reaches (Draft.fault?_eq_none_iff.1 g.sound).2.1 hpath
    obtain ⟨r, hr, rfl⟩ := List.mem_map.1 (Draft.has_iff.1 hhas)
    exact ⟨r, mem_expandedRules.2 ⟨hr, hx⟩, rfl⟩

/-! ## The grammar without the others -/

theorem exists_isRebuilt_expandedRules (g : Grammar α) :
    ∃ h, g.rebuildWith (expandedRules g) = .ok h ∧ g.IsRebuilt (expandedRules g) h := by
  have hopen := Draft.openFallback?_eq_none_iff.1 (Draft.fault?_eq_none_iff.1 g.sound).2.2.2
  apply Grammar.exists_rebuildWith
  · exact (List.filter_sublist.map _).nodup g.distinct
  · exact fun r hr => g.faultless r (mem_expandedRules.1 hr).1
  · exact mem_map_expandedRules.2 (start_mem_expandable g)
  · exact mem_map_expandedRules.2 (fallback_mem_expandable g)
  · intro r hr a ha x hx
    obtain ⟨hr, hname⟩ := mem_expandedRules.1 hr
    exact mem_map_expandedRules.2 (mem_expandable_of_mem_arguments hr hname ha hx)
  · exact fun r hr => hopen r (mem_expandedRules.1 hr).1

section Rebuilt

variable (hrebuilt : g.IsRebuilt (expandedRules g) h)
include hrebuilt

/-- The references that are left lead as far as before. -/
theorem reaches_of_isRebuilt (hname : name ∈ expandable g) (hpath : g.graph.Reaches name x) :
    h.graph.Reaches name x := by
  induction hpath with
  | refl => exact RuleGraph.Reaches.refl _ _
  | @tail y x hy hx ih =>
    refine ReflTransGen.tail ih ?_
    obtain ⟨r, hr, rfl, a, ha, hx⟩ := RuleGraph.mem_references_ofRules.1 hx
    have hkept : r ∈ h.rules := by
      rw [hrebuilt.rules_eq]
      exact mem_expandedRules.2 ⟨hr, mem_expandable_of_reaches hname hy⟩
    exact RuleGraph.mem_references_ofRules.2 ⟨r, hkept, rfl, a, ha, hx⟩

theorem checkReachability_of_isRebuilt : checkReachability h = [] := by
  rw [checkReachability_eq, List.map_eq_nil_iff, List.filter_eq_nil_iff]
  intro x hx
  have hx : x ∈ expandable g := by
    rwa [Grammar.ruleNames, hrebuilt.rules_eq, mem_map_expandedRules] at hx
  have hmem : x ∈ expandable h := by
    rw [mem_expandable] at hx ⊢
    rw [hrebuilt.start_eq, hrebuilt.fallback_eq]
    exact hx.imp (reaches_of_isRebuilt hrebuilt (start_mem_expandable g))
      (reaches_of_isRebuilt hrebuilt (fallback_mem_expandable g))
  simpa using hmem

theorem rule?_of_isRebuilt (hx : x ∈ expandable g) : h.rule? x = g.rule? x := by
  refine Option.ext fun r => ?_
  rw [Draft.rule?_eq_some_iff, Draft.rule?_eq_some_iff, hrebuilt.rules_eq, mem_expandedRules,
    and_assoc]
  refine and_congr_right fun _ => ⟨And.right, fun hname => ⟨?_, hname⟩⟩
  rwa [hname]

theorem fallbackRule_of_isRebuilt : h.fallbackRule = g.fallbackRule := by
  apply hrebuilt.fallbackRule_eq
  rw [rule?_of_isRebuilt hrebuilt (fallback_mem_expandable g), g.rule?_fallback]

theorem agreeOn_of_isRebuilt : g.AgreeOn (fun _ => True) (· ∈ expandable g) h where
  name_eq := hrebuilt.name_eq
  choice_eq symbol hsymbol depth u _ := by
    unfold Grammar.choiceAt Grammar.ruleAtDepth
    rw [rule?_of_isRebuilt hrebuilt hsymbol, fallbackRule_of_isRebuilt hrebuilt]
  closed symbol hsymbol depth u _ a ha x hx := by
    unfold Grammar.choiceAt at ha
    rw [Option.map_eq_some_iff] at ha
    obtain ⟨r, hr, hchoose⟩ := ha
    have ha := mem_of_choose hchoose
    obtain ⟨hmem, rfl⟩ := Draft.rule?_eq_some_iff.1 hr
    unfold Grammar.ruleAtDepth at ha
    split at ha
    next =>
      have hname : g.fallbackRule.name = g.fallback :=
        (Draft.rule?_eq_some_iff.1 g.rule?_fallback).2
      exact mem_expandable_of_mem_arguments g.fallbackRule_mem
        (hname ▸ fallback_mem_expandable g) ha hx
    next => exact mem_expandable_of_mem_arguments hmem hsymbol ha hx

end Rebuilt

/-- Without the rules that are found unreachable a grammar can be built again. No rule of it is
found unreachable, and it synthesizes the same from its start rule, with the same draws. -/
theorem exists_rebuildWith_expandedRules (g : Grammar α) :
    ∃ h, g.rebuildWith (expandedRules g) = .ok h ∧ g.IsRebuilt (expandedRules g) h ∧
      checkReachability h = [] ∧
      ∀ {σ : Type} [Source σ α] (depth : Int) (s : σ),
        h.synthesize h.start depth s = g.synthesize g.start depth s := by
  obtain ⟨h, hbuild, hrebuilt⟩ := exists_isRebuilt_expandedRules g
  refine ⟨h, hbuild, hrebuilt, checkReachability_of_isRebuilt hrebuilt, fun depth s => ?_⟩
  rw [hrebuilt.start_eq]
  exact (agreeOn_of_isRebuilt hrebuilt).synthesize_eq (start_mem_expandable g)
    (fun _ => trivial)

end Lint

end SeededArt
