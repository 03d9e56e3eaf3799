import SeededArt.Arithmetic
/-!
# Rules of a weighted grammar

A rule has a name and weighted alternatives. An alternative without arguments is a leaf; one with
arguments expands into the rules that the arguments name. The leaf named `a` stands for a random
constant, every other alternative for a call of the function that it emits.
-/

namespace SeededArt

/-- The name of the leaf that stands for a random constant. -/
def scalarConstant : String := "a"

/-- One form that a rule can take. -/
structure Alternative (α : Type) where
  name : String
  /-- The rules that the arguments of the call are expanded from. -/
  arguments : List String
  weight : α
  /-- The function that is called. -/
  emit : String
deriving BEq

namespace Alternative

variable {α : Type}

/-- Whether the alternative ends an expansion. -/
def isTerminal (a : Alternative α) : Bool := a.arguments.isEmpty

/-- Whether the alternative stands for a random constant. -/
def isConstant (a : Alternative α) : Bool := a.isTerminal && a.name == scalarConstant

def arity (a : Alternative α) : Nat := a.arguments.length

end Alternative

/-- A rule. -/
structure Rule (α : Type) where
  name : String
  alternatives : List (Alternative α)
deriving BEq

namespace Rule

variable {α : Type}

def total [Arithmetic α] (r : Rule α) : α := Arithmetic.total (r.alternatives.map (·.weight))

/-- The rule that a list holds under a name. -/
def find? (rules : List (Rule α)) (name : String) : Option (Rule α) :=
  rules.find? (·.name == name)

def has (rules : List (Rule α)) (name : String) : Bool := rules.any (·.name == name)

theorem isSome_find?_eq (rules : List (Rule α)) (name : String) :
    (find? rules name).isSome = has rules name := by
  simp [find?, has, List.isSome_find?]

theorem has_eq_true_iff {rules : List (Rule α)} {name : String} :
    has rules name = true ↔ name ∈ rules.map (·.name) := by
  simp [has]

end Rule

end SeededArt
