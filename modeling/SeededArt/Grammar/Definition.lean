import SeededArt.Grammar.Draft
/-!
# Definitions of grammars

A definition is a grammar as a document declares it: nothing is checked, and an alternative names
the function it emits only if that differs from its own name. `Definition.ofGrammar` describes a
grammar and `Definition.build` makes the grammar of a definition.
-/

namespace SeededArt

variable {α : Type}

/-- An alternative of a definition. -/
structure AlternativeDefinition (α : Type) where
  name : String
  arguments : List String := []
  weight : α
  emit : Option String := none
deriving BEq

/-- A rule of a definition. -/
structure RuleDefinition (α : Type) where
  name : String
  alternatives : List (AlternativeDefinition α)
deriving BEq

/-- A grammar as a document declares it. -/
structure Definition (α : Type) where
  name : String
  start : String := defaultStart
  fallback : String := defaultFallback
  rules : List (RuleDefinition α)
deriving BEq

def AlternativeDefinition.ofAlternative (a : Alternative α) : AlternativeDefinition α :=
  ⟨a.name, a.arguments, a.weight, if a.emit = a.name then none else some a.emit⟩

/-- The alternative that a definition declares. -/
def AlternativeDefinition.toAlternative (a : AlternativeDefinition α) : Alternative α :=
  ⟨a.name, a.arguments, a.weight, a.emit.getD a.name⟩

@[simp] theorem AlternativeDefinition.toAlternative_ofAlternative (a : Alternative α) :
    (ofAlternative a).toAlternative = a := by
  cases a
  simp only [ofAlternative, toAlternative]
  split <;> simp_all

def RuleDefinition.ofRule (r : Rule α) : RuleDefinition α :=
  ⟨r.name, r.alternatives.map .ofAlternative⟩

/-- The rule that a definition declares. -/
def RuleDefinition.toRule (r : RuleDefinition α) : Rule α :=
  ⟨r.name, r.alternatives.map (·.toAlternative)⟩

@[simp] theorem RuleDefinition.toRule_ofRule (r : Rule α) : (ofRule r).toRule = r := by
  cases r
  simp [ofRule, toRule, Function.comp_def]

namespace Definition

variable [Arithmetic α]

def ofGrammar (g : Grammar α) : Definition α :=
  ⟨g.name, g.start, g.fallback, g.rules.map .ofRule⟩

/-- The grammar that a definition declares, or why there is none. -/
def build (d : Definition α) : Except (GrammarFault α) (Grammar α) := do
  let draft := Draft.new d.name d.start d.fallback
  (← draft.addRules (d.rules.map (·.toRule))).build

end Definition

end SeededArt
