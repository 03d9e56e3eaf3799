import SeededArt.Grammar.Basic
/-!
# What can be wrong with a grammar

A `GrammarFault` is the cause for which a rule or a whole grammar is refused. `message` and `help`
are its wording.
-/

namespace SeededArt

/-- Why a rule or a grammar is refused. -/
inductive GrammarFault (α : Type) where
  | repeatedRule (rule grammar : String)
  | noAlternatives (rule grammar : String)
  | badWeight (alternative rule : String) (weight : α)
  | badTotal (rule : String) (total : α)
  | unknownStart (start grammar : String)
  | unknownFallback (fallback grammar : String)
  | danglingReference (alternative rule missing : String)
  | openFallback (fallback grammar alternative : String)

namespace GrammarFault

variable {α : Type}

def message [Arithmetic α] : GrammarFault α → String
  | repeatedRule rule grammar => s!"Rule {rule} already exists in grammar {grammar}"
  | noAlternatives rule grammar => s!"Rule {rule} in grammar {grammar} has no alternatives"
  | badWeight alternative rule weight =>
    let number := Arithmetic.plain weight
    s!"Alternative {alternative} of rule {rule} has invalid weight {number}"
  | badTotal rule total =>
    let number := Arithmetic.plain total
    s!"Total weight for rule {rule} must equal 1, but got {number}"
  | unknownStart start grammar => s!"Start symbol {start} is not a rule of grammar {grammar}"
  | unknownFallback fallback grammar => s!"Rule {fallback} not found in grammar {grammar}"
  | danglingReference alternative rule missing =>
    s!"Alternative {alternative} of rule {rule} references unknown rule {missing}"
  | openFallback fallback grammar alternative =>
    s!"Fallback rule {fallback} of grammar {grammar} has composite alternative {alternative}, " ++
      "which can recurse forever"

def help : GrammarFault α → Option String
  | repeatedRule .. => some "Each rule may be registered only once"
  | badWeight .. => some "Weights must be finite and non-negative"
  | badTotal .. => some "Adjust the alternative weights so they sum to 1"
  | unknownFallback .. => some "The fallback rule is required to end synthesis"
  | openFallback .. => some "The fallback rule must only contain terminal alternatives"
  | _ => none

end GrammarFault

end SeededArt
