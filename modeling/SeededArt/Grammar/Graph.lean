import SeededArt.Grammar.Draft
import SeededArt.Text.Names
/-!
# Which rules lead to which

A `RuleGraph` records for each registered rule the names that it refers to. `reachable` is every
name that a path of references leads to. The search expands each registered rule at most once:
what is expanded leaves the list of rules still to be expanded, so the search ends.
-/

namespace SeededArt

open Text

/-- The references between rules: for each registered rule the set of names it refers to. -/
structure RuleGraph where
  entries : List (String × List String) := []

namespace RuleGraph

/-- Adds targets to a rule's references, registering the rule first if need be. -/
def refer (from_ : String) (targets : List String) :
    List (String × List String) → List (String × List String)
  | [] => [(from_, nameSet targets)]
  | (rule, known) :: rest =>
    if rule == from_ then (rule, targets.foldr insertName known) :: rest
    else (rule, known) :: refer from_ targets rest

/-- Registers a rule, even if it refers to nothing. -/
def register (g : RuleGraph) (rule : String) : RuleGraph := ⟨refer rule [] g.entries⟩

/-- Records that a rule refers to a name. Only the rule is registered by it. -/
def addReference (g : RuleGraph) (rule target : String) : RuleGraph :=
  ⟨refer rule [target] g.entries⟩

def references (g : RuleGraph) (rule : String) : List String :=
  match g.entries.find? (·.1 == rule) with
  | some (_, targets) => targets
  | none => []

def size (g : RuleGraph) : Nat := g.entries.length

/-- Visits the names of `agenda` in order, before them what the visited rules refer to. `pending`
are the entries that are not expanded yet, `seen` the names visited so far. -/
def visit (pending : List (String × List String)) (agenda seen : List String) : List String :=
  match agenda with
  | [] => seen
  | rule :: agenda =>
    match _h : pending.find? (·.1 == rule) with
    | some (_, targets) =>
      visit (pending.eraseP (·.1 == rule)) (targets ++ agenda) (insertName rule seen)
    | none => visit pending agenda (insertName rule seen)
termination_by (pending.length, agenda.length)
decreasing_by
  · apply Prod.Lex.left
    have hm := List.mem_of_find?_eq_some _h
    have hp := List.find?_some _h
    have := List.length_pos_of_mem hm
    rw [List.length_eraseP_of_mem hm (by simpa using hp)]
    omega
  · apply Prod.Lex.right
    simp

/-- Every name that a path of references leads to from `start`, and `start` itself. -/
def reachable (g : RuleGraph) (start : String) : List String := visit g.entries [start] []

/-- The references of a list of rules. -/
def ofRules {α : Type} (rules : List (Rule α)) : RuleGraph :=
  rules.foldl (fun g r => ⟨refer r.name (r.alternatives.flatMap (·.arguments)) g.entries⟩) {}

end RuleGraph

/-- The references between the rules of a grammar. -/
def Grammar.graph {α : Type} [Arithmetic α] (g : Grammar α) : RuleGraph := .ofRules g.rules

/-- The names of all functions that the grammar can call. A constant is no call. -/
def Grammar.emitNames {α : Type} [Arithmetic α] (g : Grammar α) : List String :=
  nameSet ((g.rules.flatMap (·.alternatives)).filter (fun a => !a.isConstant) |>.map (·.emit))

end SeededArt
