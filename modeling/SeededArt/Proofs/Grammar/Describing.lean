import SeededArt.Grammar.Definition
import SeededArt.Proofs.Grammar.Reordering
/-!
# Describing a grammar and building it again

A definition can say the same in two ways: an alternative may name its own name as the function that
it emits, or name none. `Definition.normal` names none. What is built from a definition has its
normal form as its description (`ofGrammar_eq_normal`), and a normal form builds what the definition
builds (`build_normal`). The description of a grammar passes every check again and builds the same
grammar (`build_ofGrammar`), so a definition builds a grammar exactly if its normal form describes
it (`build_eq_ok_iff_describes`).
-/

namespace SeededArt

variable {α : Type}

/-! ## Normal forms -/

/-- An alternative that does not name its own name as the function that it emits. -/
def AlternativeDefinition.normal (a : AlternativeDefinition α) : AlternativeDefinition α :=
  if a.emit = some a.name then { a with emit := none } else a

def RuleDefinition.normal (r : RuleDefinition α) : RuleDefinition α :=
  { r with alternatives := r.alternatives.map (·.normal) }

def Definition.normal (d : Definition α) : Definition α :=
  { d with rules := d.rules.map (·.normal) }

theorem AlternativeDefinition.ofAlternative_toAlternative (a : AlternativeDefinition α) :
    ofAlternative a.toAlternative = a.normal := by
  obtain ⟨name, arguments, weight, emit⟩ := a
  cases emit with
  | none => simp [ofAlternative, toAlternative, normal]
  | some emit =>
    by_cases hemit : emit = name
    · simp [ofAlternative, toAlternative, normal, hemit]
    · simp [ofAlternative, toAlternative, normal, hemit]

theorem RuleDefinition.ofRule_toRule (r : RuleDefinition α) : ofRule r.toRule = r.normal := by
  unfold ofRule toRule normal
  rw [List.map_map]
  simp only [Function.comp_def, AlternativeDefinition.ofAlternative_toAlternative]

theorem RuleDefinition.toRule_normal (r : RuleDefinition α) : r.normal.toRule = r.toRule := by
  rw [← ofRule_toRule, toRule_ofRule]

/-! ## Building -/

variable [Arithmetic α] {g h : Grammar α} {d : Definition α}

theorem Grammar.IsRebuilt.eq (hrebuilt : g.IsRebuilt g.rules h) : h = g := by
  obtain ⟨⟨name, start, fallback, rules, distinct, faultless⟩, sound⟩ := g
  obtain ⟨⟨_, _, _, _, _, _⟩, _⟩ := h
  obtain ⟨rfl, rfl, rfl, rfl⟩ := hrebuilt
  rfl

namespace Definition

theorem build_eq_ofRules (d : Definition α) :
    d.build = Grammar.ofRules d.name d.start d.fallback (d.rules.map (·.toRule)) := rfl

/-- A normal form builds what the definition builds, or is refused for the same reason. -/
theorem build_normal (d : Definition α) : d.normal.build = d.build := by
  rw [build_eq_ofRules, build_eq_ofRules, normal, List.map_map]
  simp only [Function.comp_def, RuleDefinition.toRule_normal]

theorem map_toRule_ofGrammar (g : Grammar α) :
    (ofGrammar g).rules.map (·.toRule) = g.rules := by
  unfold ofGrammar
  rw [List.map_map]
  simp only [Function.comp_def, RuleDefinition.toRule_ofRule, List.map_id']

/-- The description of a grammar builds that grammar. -/
theorem build_ofGrammar (g : Grammar α) : (ofGrammar g).build = .ok g := by
  obtain ⟨h, hbuild, hrebuilt⟩ := Grammar.exists_rebuildWith_of_perm (List.Perm.refl g.rules)
  obtain rfl := hrebuilt.eq
  rw [build_eq_ofRules, map_toRule_ofGrammar]
  exact hbuild

theorem ofGrammar_eq_normal (hbuild : d.build = .ok g) : ofGrammar g = d.normal := by
  rw [build_eq_ofRules] at hbuild
  obtain ⟨hname, hstart, hfallback, hrules⟩ := Grammar.of_ofRules hbuild
  unfold ofGrammar normal
  rw [hname, hstart, hfallback, hrules, List.map_map]
  simp only [Function.comp_def, RuleDefinition.ofRule_toRule]

/-- The description of a grammar builds the same grammar, in every field of every alternative and
with the rules in their order. A definition builds a grammar exactly if it describes the grammar,
once every function that an alternative names as its own is left out. -/
theorem build_eq_ok_iff_describes :
    (∀ g : Grammar α, (ofGrammar g).build = .ok g) ∧
      ∀ (d : Definition α) (g : Grammar α), d.build = .ok g ↔ ofGrammar g = d.normal := by
  refine ⟨build_ofGrammar, fun d g => ⟨ofGrammar_eq_normal, fun hdescribes => ?_⟩⟩
  rw [← build_normal, ← hdescribes]
  exact build_ofGrammar g

end Definition

end SeededArt
