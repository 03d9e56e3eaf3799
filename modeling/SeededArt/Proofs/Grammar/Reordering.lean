import SeededArt.Proofs.Except
import SeededArt.Proofs.Lint.Functions
import SeededArt.Proofs.Lint.Unreachable
import SeededArt.Proofs.Lint.ZeroWeights
/-!
# Rules in another order

A grammar looks its rules up by their names, so it can be built again from the same rules in another
order (`Grammar.exists_rebuildWith_of_perm`), and the two agree on every symbol
(`Grammar.IsRebuilt.agreeOn_of_perm`). Sets of names do not keep the order in which names are added
(`Text.nameSet_congr`, `RuleGraph.reachable_congr`), so emitted and reachable names are the same.
Findings about rules come in the order of the rules, so a report is permuted
(`Lint.check_perm_of_isRebuilt`).
-/

namespace SeededArt

open Arithmetic SeededArt.Random Text

/-! ## Sets of names -/

namespace Text

variable {names others : List String}

theorem eq_of_pairwise_precedes (hnames : names.Pairwise Precedes)
    (hothers : others.Pairwise Precedes) (hmem : ∀ x, x ∈ names ↔ x ∈ others) :
    names = others := by
  have hirrefl : ∀ {x y : String}, Precedes x y → x ≠ y := by
    rintro x _ hx rfl
    exact Precedes.irrefl x hx
  have hperm : names.Perm others :=
    (List.perm_ext_iff_of_nodup (hnames.imp hirrefl) (hothers.imp hirrefl)).2 hmem
  refine hperm.eq_of_pairwise (fun x y _ _ hxy hyx => ?_) hnames hothers
  exact absurd (hxy.trans hyx) (Precedes.irrefl x)

/-- A set of names depends on its members only. -/
theorem nameSet_congr (hmem : ∀ x, x ∈ names ↔ x ∈ others) : nameSet names = nameSet others := by
  refine eq_of_pairwise_precedes (pairwise_nameSet names) (pairwise_nameSet others) fun x => ?_
  rw [mem_nameSet, mem_nameSet, hmem]

end Text

namespace RuleGraph

variable {g h : RuleGraph}

theorem pairwise_visit {pending : List (String × List String)} {agenda seen : List String}
    (hseen : seen.Pairwise Precedes) : (visit pending agenda seen).Pairwise Precedes := by
  fun_induction visit pending agenda seen with
  | case1 => exact hseen
  | case2 _ _ _ _ _ _ _ ih => exact ih (pairwise_insertName hseen)
  | case3 _ _ _ _ _ ih => exact ih (pairwise_insertName hseen)

/-- What is reachable depends on which names refer to which only. -/
theorem reachable_congr (hg : (g.entries.map (·.1)).Nodup) (hh : (h.entries.map (·.1)).Nodup)
    (hrefers : ∀ name x, h.Refers name x ↔ g.Refers name x) (start : String) :
    h.reachable start = g.reachable start := by
  have hsame : h.Refers = g.Refers := by
    funext name x
    exact propext (hrefers name x)
  have hpairwise : ∀ k : RuleGraph, (k.reachable start).Pairwise Precedes :=
    fun _ => pairwise_visit List.Pairwise.nil
  refine eq_of_pairwise_precedes (hpairwise h) (hpairwise g) fun x => ?_
  rw [mem_reachable hh, mem_reachable hg, Reaches, Reaches, hsame]

end RuleGraph

/-! ## Adding rules -/

section Adding

variable {α : Type} [Arithmetic α]

namespace Draft

variable {d longer : Draft α} {r : Rule α} {rules : List (Rule α)}

theorem isExtendedBy_of_addRule (hadd : d.addRule r = .ok longer) : d.IsExtendedBy r longer := by
  cases hhas : d.has r.name with
  | true =>
    rw [addRule_of_has hhas] at hadd
    cases hadd
  | false =>
    cases hfault : r.fault? d.name with
    | some fault =>
      rw [addRule_of_fault hhas hfault] at hadd
      cases hadd
    | none =>
      obtain ⟨other, hother, hextended⟩ := exists_addRule hhas hfault
      obtain rfl : other = longer := Except.ok.inj (hother.symm.trans hadd)
      exact hextended

theorem of_addRules (hadd : d.addRules rules = .ok longer) :
    longer.name = d.name ∧ longer.start = d.start ∧ longer.fallback = d.fallback ∧
      longer.rules = d.rules ++ rules := by
  induction rules generalizing d with
  | nil =>
    cases hadd
    exact ⟨rfl, rfl, rfl, (List.append_nil _).symm⟩
  | cons r rules ih =>
    rw [addRules_cons] at hadd
    obtain ⟨next, hr, hadd⟩ := exists_of_bind_eq_ok hadd
    have hnext := isExtendedBy_of_addRule hr
    obtain ⟨hname, hstart, hfallback, hrules⟩ := ih hadd
    refine ⟨hname.trans hnext.name_eq, hstart.trans hnext.start_eq,
      hfallback.trans hnext.fallback_eq, ?_⟩
    rw [hrules, hnext.rules_eq, List.append_assoc]
    rfl

end Draft

namespace Grammar

variable {g h : Grammar α} {name start fallback : String} {rules reordered : List (Rule α)}

/-- Makes a grammar of a name, a start symbol, a fallback symbol and rules that are added one after
another. -/
def ofRules (name start fallback : String) (rules : List (Rule α)) :
    Except (GrammarFault α) (Grammar α) := do
  (← (Draft.new name start fallback).addRules rules).build

theorem of_ofRules (hmade : ofRules name start fallback rules = .ok g) :
    g.name = name ∧ g.start = start ∧ g.fallback = fallback ∧ g.rules = rules := by
  obtain ⟨d, hadd, hbuild⟩ := exists_of_bind_eq_ok hmade
  obtain rfl : g.toDraft = d := Draft.build_eq_ok_iff.1 hbuild
  exact Draft.of_addRules hadd

/-- Grammars that are made of the same texts differ in their rules only. -/
theorem isRebuilt_of_ofRules (hg : ofRules name start fallback rules = .ok g)
    (hh : ofRules name start fallback reordered = .ok h) : g.IsRebuilt reordered h := by
  obtain ⟨hgname, hgstart, hgfallback, -⟩ := of_ofRules hg
  obtain ⟨hhname, hhstart, hhfallback, hhrules⟩ := of_ofRules hh
  exact ⟨hhname.trans hgname.symm, hhstart.trans hgstart.symm, hhfallback.trans hgfallback.symm,
    hhrules⟩

/-- What is checked of the rules of a grammar does not depend on their order. -/
theorem exists_rebuildWith_of_perm (hperm : g.rules.Perm rules) :
    ∃ h, g.rebuildWith rules = .ok h ∧ g.IsRebuilt rules h := by
  obtain ⟨hstart, hfallback, hdangling, hopen⟩ := Draft.fault?_eq_none_iff.1 g.sound
  rw [Draft.openFallback?_eq_none_iff] at hopen
  rw [Draft.dangling?_eq_none_iff] at hdangling
  have hnames : (g.rules.map (·.name)).Perm (rules.map (·.name)) := hperm.map _
  apply exists_rebuildWith
  · exact hnames.nodup_iff.1 g.distinct
  · exact fun r hr => g.faultless r (hperm.mem_iff.2 hr)
  · exact hnames.mem_iff.1 (Draft.has_iff.1 hstart)
  · exact hnames.mem_iff.1 (Draft.has_iff.1 hfallback)
  · intro r hr a ha x hx
    exact hnames.mem_iff.1 (hdangling r (hperm.mem_iff.2 hr) a ha x hx)
  · exact fun r hr => hopen r (hperm.mem_iff.2 hr)

theorem exists_ofRules_of_perm (hperm : rules.Perm reordered)
    (hmade : ofRules name start fallback rules = .ok g) :
    ∃ h, ofRules name start fallback reordered = .ok h := by
  obtain ⟨rfl, rfl, rfl, rfl⟩ := of_ofRules hmade
  obtain ⟨h, hh, -⟩ := exists_rebuildWith_of_perm hperm
  exact ⟨h, hh⟩

end Grammar

end Adding

/-! ## What does not see the order -/

section Reordered

variable {α : Type} [Arithmetic α] {g h : Grammar α} {rules : List (Rule α)}

namespace Grammar.IsRebuilt

variable (hrebuilt : g.IsRebuilt rules h) (hperm : g.rules.Perm rules)
include hrebuilt hperm

theorem mem_rules_of_perm {r : Rule α} : r ∈ h.rules ↔ r ∈ g.rules := by
  rw [hrebuilt.rules_eq, hperm.mem_iff]

theorem rule?_eq_of_perm (symbol : String) : h.rule? symbol = g.rule? symbol := by
  refine Option.ext fun r => ?_
  rw [Draft.rule?_eq_some_iff, Draft.rule?_eq_some_iff, hrebuilt.mem_rules_of_perm hperm]

theorem fallbackRule_eq_of_perm : h.fallbackRule = g.fallbackRule := by
  apply hrebuilt.fallbackRule_eq
  rw [hrebuilt.rule?_eq_of_perm hperm, g.rule?_fallback]

theorem agreeOn_of_perm : g.AgreeOn (fun _ => True) (fun _ => True) h where
  name_eq := hrebuilt.name_eq
  choice_eq symbol _ depth u _ := by
    unfold choiceAt ruleAtDepth
    rw [hrebuilt.rule?_eq_of_perm hperm, hrebuilt.fallbackRule_eq_of_perm hperm]
  closed _ _ _ _ _ _ _ _ _ := trivial

theorem emitNames_eq_of_perm : h.emitNames = g.emitNames := by
  unfold emitNames
  refine nameSet_congr fun x => List.Perm.mem_iff ?_
  rw [hrebuilt.rules_eq]
  exact ((hperm.symm.flatMap_right _).filter _).map _

theorem reachable_eq_of_perm (start : String) :
    h.graph.reachable start = g.graph.reachable start := by
  refine RuleGraph.reachable_congr (RuleGraph.nodup_ofRules _) (RuleGraph.nodup_ofRules _)
    (fun name x => ?_) start
  unfold RuleGraph.Refers
  simp only [RuleGraph.mem_references_ofRules, hrebuilt.mem_rules_of_perm hperm]

end Grammar.IsRebuilt

namespace Lint

variable (hrebuilt : g.IsRebuilt rules h) (hperm : g.rules.Perm rules)
include hrebuilt hperm

theorem checkFunctions_eq_of_isRebuilt (t : Template) :
    checkFunctions h t = checkFunctions g t := by
  unfold checkFunctions
  rw [hrebuilt.emitNames_eq_of_perm hperm, hrebuilt.name_eq]

theorem checkReachability_perm_of_isRebuilt :
    (checkReachability h).Perm (checkReachability g) := by
  have hexpandable : expandable h = expandable g := by
    unfold expandable
    rw [hrebuilt.start_eq, hrebuilt.fallback_eq, hrebuilt.reachable_eq_of_perm hperm,
      hrebuilt.reachable_eq_of_perm hperm]
  have hfinding : unreachableRule h = unreachableRule g := by
    funext name
    unfold unreachableRule
    rw [hrebuilt.name_eq, hrebuilt.start_eq]
  have hnames : h.ruleNames.Perm g.ruleNames := by
    unfold Grammar.ruleNames
    rw [hrebuilt.rules_eq]
    exact hperm.symm.map _
  rw [checkReachability_eq, checkReachability_eq, hexpandable, hfinding]
  exact (hnames.filter _).map _

theorem checkWeights_perm_of_isRebuilt : (checkWeights h).Perm (checkWeights g) := by
  rw [checkWeights_eq, checkWeights_eq, hrebuilt.rules_eq]
  exact hperm.symm.flatMap_right _

theorem check_perm_of_isRebuilt (t : Template) :
    (check h t).diagnostics.Perm (check g t).diagnostics := by
  unfold check
  rw [checkFunctions_eq_of_isRebuilt hrebuilt hperm]
  exact ((List.Perm.refl _).append (checkReachability_perm_of_isRebuilt hrebuilt hperm)).append
    (checkWeights_perm_of_isRebuilt hrebuilt hperm)

end Lint

end Reordered

namespace Grammar

variable {α : Type} [Arithmetic α]

/-- If rules make a grammar, so do the same rules in another order. Both grammars synthesize the
same from every symbol, with the same draws, emit the same names, reach the same names from every
name, and have the same findings with every template, up to their order. -/
theorem ofRules_perm (name start fallback : String) {rules reordered : List (Rule α)}
    (hperm : rules.Perm reordered) :
    ((∃ g, ofRules name start fallback rules = .ok g) ↔
        ∃ h, ofRules name start fallback reordered = .ok h) ∧
      ∀ g h, ofRules name start fallback rules = .ok g →
        ofRules name start fallback reordered = .ok h →
        (∀ {σ : Type} [Source σ α] (symbol : String) (depth : Int) (s : σ),
          h.synthesize symbol depth s = g.synthesize symbol depth s) ∧
        h.emitNames = g.emitNames ∧
        (∀ symbol, h.graph.reachable symbol = g.graph.reachable symbol) ∧
        ∀ t, (Lint.check h t).diagnostics.Perm (Lint.check g t).diagnostics := by
  refine ⟨⟨fun ⟨_, hg⟩ => exists_ofRules_of_perm hperm hg,
    fun ⟨_, hh⟩ => exists_ofRules_of_perm hperm.symm hh⟩, fun g h hg hh => ?_⟩
  have hrebuilt := isRebuilt_of_ofRules hg hh
  have hrules : g.rules.Perm reordered := (of_ofRules hg).2.2.2 ▸ hperm
  refine ⟨fun symbol depth s => ?_, hrebuilt.emitNames_eq_of_perm hrules,
    hrebuilt.reachable_eq_of_perm hrules, Lint.check_perm_of_isRebuilt hrebuilt hrules⟩
  exact (hrebuilt.agreeOn_of_perm hrules).synthesize_eq trivial fun _ => trivial

/-- The findings about alternatives of weight zero change places. -/
theorem ofRules_reverse_rulesWithZeros :
    ∃ g h : Grammar Float, Lint.rulesWithZeros.Perm Lint.rulesWithZeros.reverse ∧
      ofRules "zeros" "E" "A" Lint.rulesWithZeros = .ok g ∧
      ofRules "zeros" "E" "A" Lint.rulesWithZeros.reverse = .ok h ∧
      (Lint.checkWeights g).map (·.message) =
        ["Alternative f of rule A has weight 0 and is never chosen",
          "Alternative y of rule E has weight 0 and is never chosen"] ∧
      (Lint.checkWeights h).map (·.message) =
        ["Alternative y of rule E has weight 0 and is never chosen",
          "Alternative f of rule A has weight 0 and is never chosen"] ∧
      h.synthesize "E" 4 (Mulberry.ofSeed "art") = g.synthesize "E" 4 (Mulberry.ofSeed "art") ∧
      h.emitNames = g.emitNames ∧ h.graph.reachable "E" = g.graph.reachable "E" ∧
      ∀ t, (Lint.check h t).diagnostics.Perm (Lint.check g t).diagnostics := by
  have hperm : Lint.rulesWithZeros.Perm Lint.rulesWithZeros.reverse := (List.reverse_perm _).symm
  have hcheck : Builtin.assembles (fun g : Grammar Float => (Lint.checkWeights g).map (·.message) =
      ["Alternative f of rule A has weight 0 and is never chosen",
        "Alternative y of rule E has weight 0 and is never chosen"]) "zeros"
      Lint.rulesWithZeros = true := by
    decide +kernel
  have hreversed : Builtin.assembles (fun h : Grammar Float =>
      (Lint.checkWeights h).map (·.message) =
      ["Alternative y of rule E has weight 0 and is never chosen",
        "Alternative f of rule A has weight 0 and is never chosen"]) "zeros"
      Lint.rulesWithZeros.reverse = true := by
    decide +kernel
  obtain ⟨g, hg, hfound⟩ := Builtin.exists_assemble hcheck
  obtain ⟨h, hh, hmoved⟩ := Builtin.exists_assemble hreversed
  obtain ⟨-, hsame⟩ := ofRules_perm "zeros" "E" "A" hperm
  obtain ⟨hsynthesize, hemit, hreachable, hfindings⟩ := hsame g h hg hh
  exact ⟨g, h, hperm, hg, hh, of_decide_eq_true hfound, of_decide_eq_true hmoved,
    hsynthesize "E" 4 _, hemit, hreachable "E", hfindings⟩

end Grammar

end SeededArt
