import SeededArt.Grammar.Fault
/-!
# Drafts and grammars

A draft collects rules one by one; a rule that is refused leaves the draft as it was. `Draft.build`
turns a draft into a grammar when the rules fit together: the start and fallback rules exist, every
argument names a rule, and the fallback rule has no composite alternative that can be chosen, since
it is what ends every expansion.
-/

namespace SeededArt

variable {α : Type}

/-- The rule an expansion starts from, unless a grammar says otherwise. -/
def defaultStart : String := "E"

/-- The rule that ends expansions, unless a grammar says otherwise. -/
def defaultFallback : String := "A"

/-- How far the total weight of a rule may lie from one. -/
def weightTolerance [Arithmetic α] : α := 1e-9

/-- Whether a weight is finite and not negative. -/
def Alternative.hasGoodWeight [Arithmetic α] (a : Alternative α) : Bool :=
  Arithmetic.isFinite a.weight && !Arithmetic.less a.weight 0.0

/-- Whether a total weight is one, up to the tolerance. -/
def isNearOne [Arithmetic α] (total : α) : Bool :=
  !Arithmetic.less weightTolerance (Arithmetic.magnitude (total - 1.0))

/-- The first fault of a rule by itself, for a grammar of the given name. -/
def Rule.fault? [Arithmetic α] (r : Rule α) (grammar : String) : Option (GrammarFault α) :=
  if r.alternatives.isEmpty then some (.noAlternatives r.name grammar)
  else
    match r.alternatives.find? fun a => !a.hasGoodWeight with
    | some bad => some (.badWeight bad.name r.name bad.weight)
    | none => if isNearOne r.total then none else some (.badTotal r.name r.total)

/-- A grammar in the making: rules with distinct names, each without a fault by itself, in the
order in which they were added. -/
structure Draft (α : Type) [Arithmetic α] where
  name : String
  start : String
  fallback : String
  rules : List (Rule α)
  distinct : (rules.map (·.name)).Nodup
  faultless : ∀ r ∈ rules, r.fault? name = none

namespace Draft

variable [Arithmetic α]

def rule? (d : Draft α) (name : String) : Option (Rule α) := Rule.find? d.rules name

def has (d : Draft α) (name : String) : Bool := Rule.has d.rules name

/-- The draft without rules. -/
def new (name : String) (start : String := defaultStart) (fallback : String := defaultFallback) :
    Draft α where
  name
  start
  fallback
  rules := []
  distinct := List.nodup_nil
  faultless _ h := nomatch h

/-- Adds a rule after the others, or says why not. -/
def addRule (d : Draft α) (r : Rule α) : Except (GrammarFault α) (Draft α) :=
  if h : d.has r.name then .error (.repeatedRule r.name d.name)
  else
    match hr : r.fault? d.name with
    | some fault => .error fault
    | none =>
      .ok { d with
        rules := d.rules ++ [r]
        distinct := by
          have absent : r.name ∉ d.rules.map (·.name) := fun hm => h (Rule.has_eq_true_iff.2 hm)
          rw [List.map_append, List.nodup_append]
          refine ⟨d.distinct, by simp, fun a ha b hb => ?_⟩
          rw [List.map_singleton, List.mem_singleton] at hb
          rintro rfl
          exact absent (hb ▸ ha)
        faultless := by
          intro other hm
          rcases List.mem_append.1 hm with hm | hm
          · exact d.faultless other hm
          · rw [List.mem_singleton.1 hm, hr] }

/-- Adds rules in order, up to the first that is refused. -/
def addRules (d : Draft α) (rules : List (Rule α)) : Except (GrammarFault α) (Draft α) :=
  rules.foldlM addRule d

/-- The first argument that names no rule, in the order of rules, alternatives and arguments. -/
def dangling? (d : Draft α) : Option (GrammarFault α) :=
  d.rules.findSome? fun r =>
    r.alternatives.findSome? fun a =>
      (a.arguments.find? fun name => !d.has name).map fun missing =>
        .danglingReference a.name r.name missing

/-- The first composite alternative of the fallback rule that can be chosen. -/
def openFallback? (d : Draft α) : Option (Alternative α) :=
  (d.rule? d.fallback).bind fun r =>
    r.alternatives.find? fun a => !a.isTerminal && Arithmetic.less 0.0 a.weight

/-- The first fault of the rules taken together. -/
def fault? (d : Draft α) : Option (GrammarFault α) :=
  if !d.has d.start then some (.unknownStart d.start d.name)
  else if !d.has d.fallback then some (.unknownFallback d.fallback d.name)
  else
    match d.dangling? with
    | some fault => some fault
    | none => d.openFallback?.map fun a => .openFallback d.fallback d.name a.name

theorem has_fallback_of_fault? {d : Draft α} (h : d.fault? = none) :
    (d.rule? d.fallback).isSome := by
  unfold fault? at h
  split at h
  next => simp at h
  next =>
    split at h
    next => simp at h
    next hf => simpa [rule?, Rule.isSome_find?_eq, has] using hf

end Draft

/-- A grammar: a draft whose rules fit together. -/
structure Grammar (α : Type) [Arithmetic α] extends Draft α where
  sound : toDraft.fault? = none

/-- The grammar of a draft, or why there is none. -/
def Draft.build [Arithmetic α] (d : Draft α) : Except (GrammarFault α) (Grammar α) :=
  match h : d.fault? with
  | some fault => .error fault
  | none => .ok { d with sound := h }

namespace Grammar

variable [Arithmetic α]

/-- The rule that ends expansions. -/
def fallbackRule (g : Grammar α) : Rule α :=
  (g.rule? g.fallback).get (Draft.has_fallback_of_fault? g.sound)

/-- The names of the rules, in the order in which they were added. -/
def ruleNames (g : Grammar α) : List String := g.rules.map (·.name)

def size (g : Grammar α) : Nat := g.rules.length

end Grammar

end SeededArt
