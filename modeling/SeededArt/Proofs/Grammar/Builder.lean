import SeededArt.Proofs.Grammar.Calls
/-!
# Building with a table and an order

A builder keeps the alternatives of its rules in a hash table and their names in a list, and
changes both in place. Its calls and its last checks are those of a draft (`call_alike`,
`build_eq`), so what holds of drafts holds of both containers: after any calls they agree, and a
grammar is built exactly if the rules added by then fit together (`acceptance_exact`).
-/

namespace SeededArt

open Arithmetic

variable {α : Type} [Arithmetic α]

/-- A grammar in the making, with its rules in two containers. -/
structure Builder (α : Type) where
  name : String
  start : String
  fallback : String
  /-- The alternatives of the rules, by name. -/
  table : Std.HashMap String (List (Alternative α))
  /-- The names of the rules, in the order in which they were added. -/
  order : List String

namespace Builder

def new (name : String) : Builder α := ⟨name, defaultStart, defaultFallback, ∅, []⟩

def addRule (r : Rule α) : EStateM (GrammarFault α) (Builder α) Unit := do
  let b ← get
  if b.table.contains r.name then
    throw (.repeatedRule r.name b.name)
  else if r.alternatives.isEmpty then
    throw (.noAlternatives r.name b.name)
  else
    match r.alternatives.find? fun a => !isFinite a.weight || less a.weight 0.0 with
    | some bad => throw (.badWeight bad.name r.name bad.weight)
    | none =>
      if less weightTolerance (magnitude (r.total - 1.0)) then
        throw (.badTotal r.name r.total)
      else
        modify fun b => { b with order := b.order ++ [r.name] }
        modify fun b => { b with table := b.table.insert r.name r.alternatives }

def call : Call α → EStateM (GrammarFault α) (Builder α) Unit
  | .start symbol => modify fun b => { b with start := symbol }
  | .fallback symbol => modify fun b => { b with fallback := symbol }
  | .rule r => addRule r

/-- The alternatives of a rule, none if there is no such rule. -/
def alternatives (b : Builder α) (name : String) : List (Alternative α) := (b.table[name]?).getD []

/-- Checks the rules together, in the order in which they were added. The grammar has the two
containers of the builder. -/
def build (b : Builder α) : Except (GrammarFault α) (Builder α) := do
  if !b.table.contains b.start then
    throw (.unknownStart b.start b.name)
  else if !b.table.contains b.fallback then
    throw (.unknownFallback b.fallback b.name)
  else
    forM b.order fun name =>
      forM (b.alternatives name) fun a =>
        match a.arguments.find? fun argument => !b.table.contains argument with
        | some missing => throw (.danglingReference a.name name missing)
        | none => pure ()
    match (b.alternatives b.fallback).find? fun a => !a.isTerminal && less 0.0 a.weight with
    | some a => throw (.openFallback b.fallback b.name a.name)
    | none => return b

/-- The rules with their alternatives, in the order in which they were added. -/
def rules (b : Builder α) : List (Rule α) :=
  b.order.filterMap fun name => (b.table[name]?).map (Rule.mk name)

/-! ## Calls -/

section Calls

variable (r : Rule α) (b : Builder α)

/-- The builder with a rule in both containers. -/
def insert : Builder α :=
  { b with
    order := b.order ++ [r.name]
    table := b.table.insert r.name r.alternatives }

theorem addRule_of_contains (h : b.table.contains r.name = true) :
    addRule r b = .error (.repeatedRule r.name b.name) b := by
  show (if b.table.contains r.name = true then _ else _ : EStateM _ (Builder α) Unit) b = _
  rw [if_pos h]
  rfl

theorem addRule_of_not_contains (h : b.table.contains r.name = false) :
    addRule r b =
      match r.fault? b.name with
      | some fault => .error fault b
      | none => .ok () (b.insert r) := by
  have hbad : (fun a : Alternative α => !isFinite a.weight || less a.weight 0.0) =
      fun a => !a.hasGoodWeight := by
    funext a
    simp [Alternative.hasGoodWeight]
  unfold addRule Rule.fault? isNearOne
  rw [hbad, Random.bind_apply]
  show (if b.table.contains r.name = true then _ else _ : EStateM _ (Builder α) Unit) b = _
  rw [if_neg (by simp [h])]
  by_cases hempty : r.alternatives.isEmpty = true
  · rw [if_pos hempty, if_pos hempty]
    rfl
  · rw [if_neg hempty, if_neg hempty]
    cases r.alternatives.find? fun a => !a.hasGoodWeight with
    | some bad => rfl
    | none =>
      by_cases hfar : less weightTolerance (magnitude (r.total - 1.0)) = true
      · simp only [hfar, if_true]
        rfl
      · simp only [hfar]
        rfl

end Calls

theorem eq_of_call_error {c : Call α} {fault : GrammarFault α} {b next : Builder α}
    (h : call c b = .error fault next) : next = b := by
  cases c with
  | start => cases h
  | fallback => cases h
  | rule r =>
    change addRule r b = .error fault next at h
    cases hhas : b.table.contains r.name with
    | true =>
      rw [addRule_of_contains r b hhas] at h
      cases h
      rfl
    | false =>
      rw [addRule_of_not_contains r b hhas] at h
      split at h
      next =>
        cases h
        rfl
      next => cases h

/-! ## Builders and drafts -/

/-- A builder and a draft hold the same rules. -/
structure Represents (b : Builder α) (d : Draft α) : Prop where
  name_eq : b.name = d.name
  start_eq : b.start = d.start
  fallback_eq : b.fallback = d.fallback
  order_eq : b.order = d.rules.map (·.name)
  look_up : ∀ name, b.table[name]? = (d.rule? name).map (·.alternatives)

theorem represents_new (name : String) : (new name : Builder α).Represents (Draft.new name) := by
  refine ⟨rfl, rfl, rfl, rfl, ?_⟩
  intro key
  simp [new, Draft.new, Draft.rule?, Rule.find?]

namespace Represents

variable {b : Builder α} {d : Draft α}

theorem contains_eq (h : b.Represents d) (name : String) :
    b.table.contains name = d.has name := by
  rw [Std.HashMap.contains_eq_isSome_getElem?, h.look_up, Option.isSome_map, Draft.rule?,
    Rule.isSome_find?_eq, Draft.has]

theorem insert {r : Rule α} {longer : Draft α} (h : b.Represents d) (hnew : d.has r.name = false)
    (hlonger : d.IsExtendedBy r longer) : (b.insert r).Represents longer := by
  constructor
  · exact h.name_eq.trans hlonger.name_eq.symm
  · exact h.start_eq.trans hlonger.start_eq.symm
  · exact h.fallback_eq.trans hlonger.fallback_eq.symm
  · rw [hlonger.rules_eq, List.map_append, ← h.order_eq]
    rfl
  · intro name
    have hold := h.look_up name
    show (b.table.insert r.name r.alternatives)[name]? = _
    rw [Draft.rule?, Rule.find?] at hold ⊢
    rw [Std.HashMap.getElem?_insert, hlonger.rules_eq, List.find?_append]
    by_cases hname : r.name = name
    · subst hname
      have hnone : d.rules.find? (·.name == r.name) = none := by
        rw [Draft.has, ← Rule.isSome_find?_eq, Option.isSome_eq_false_iff,
          Option.isNone_iff_eq_none] at hnew
        exact hnew
      simp [hnone]
    · have hne : (r.name == name) = false := by simpa using hname
      simp [hne, hold]

/-- A call gives the same result on both, and they hold the same rules after it. -/
theorem call_alike (h : b.Represents d) (c : Call α) :
    Alike Represents (apart (call c b)) (apart (Draft.call c d)) := by
  cases c with
  | start symbol => exact ⟨rfl, h.name_eq, rfl, h.fallback_eq, h.order_eq, h.look_up⟩
  | fallback symbol => exact ⟨rfl, h.name_eq, h.start_eq, rfl, h.order_eq, h.look_up⟩
  | rule r =>
    show Alike Represents (apart (addRule r b)) _
    obtain ⟨hhas, hd⟩ | ⟨fault, hhas, hfault, hd⟩ | ⟨longer, hhas, hfault, hlonger, hd⟩ :=
      Draft.call_rule_cases r d
    · rw [hd, addRule_of_contains r b (by rw [h.contains_eq, hhas]), h.name_eq]
      exact ⟨rfl, h⟩
    · rw [hd, addRule_of_not_contains r b (by rw [h.contains_eq, hhas]), h.name_eq, hfault]
      exact ⟨rfl, h⟩
    · rw [hd, addRule_of_not_contains r b (by rw [h.contains_eq, hhas]), h.name_eq, hfault]
      exact ⟨rfl, h.insert hhas hlonger⟩

theorem alternatives_eq (h : b.Represents d) (name : String) :
    b.alternatives name = ((d.rule? name).map (·.alternatives)).getD [] := by
  unfold alternatives
  rw [h.look_up]

theorem rules_eq (h : b.Represents d) : b.rules = d.rules := by
  unfold rules
  rw [h.order_eq, List.filterMap_map]
  have hsome : ∀ r ∈ d.rules, ((fun name => (b.table[name]?).map (Rule.mk name)) ∘ (·.name)) r =
      some r := by
    intro r hr
    have hrule : d.rule? r.name = some r := Draft.rule?_eq_some_iff.2 ⟨hr, rfl⟩
    simp [h.look_up, hrule]
  rw [List.filterMap_congr hsome, List.filterMap_some]

end Represents

/-- The same calls give the same results on a new builder and on a new draft, and leave the same
rules. -/
theorem attempt_represents (name : String) (calls : List (Call α)) :
    (attempt call calls (new name)).1 = (attempt Draft.call calls (Draft.new name)).1 ∧
      (attempt call calls (new name)).2.Represents
        (attempt Draft.call calls (Draft.new name)).2 := by
  have hstep : ∀ (c : Call α) (b : Builder α) (d : Draft α), b.Represents d →
      Alike Represents (apart (call c b)) (apart (Draft.call c d)) := by
    intro c b d h
    exact h.call_alike c
  exact attempt_alike hstep calls (represents_new name)

/-! ## The last checks -/

section Build

variable {ε β : Type}

/-- Fails if there is a fault. -/
def refuse : Option ε → Except ε Unit
  | some fault => throw fault
  | none => pure ()

theorem forM_refuse (fault? : β → Option ε) (items : List β) :
    forM items (fun item => refuse (fault? item)) = refuse (items.findSome? fault?) := by
  induction items with
  | nil => rfl
  | cons item items ih =>
    rw [List.forM_cons, ih, List.findSome?_cons]
    cases fault? item <;> rfl

variable {b : Builder α} {d : Draft α}

/-- The loop over the order finds the arguments that a draft finds. -/
theorem Represents.forM_order (h : b.Represents d) :
    (forM b.order fun name =>
      forM (b.alternatives name) fun a =>
        match a.arguments.find? fun argument => !b.table.contains argument with
        | some missing => throw (.danglingReference a.name name missing)
        | none => pure () : Except (GrammarFault α) Unit) = refuse d.dangling? := by
  have hitem : ∀ (name : String) (a : Alternative α),
      (match a.arguments.find? fun argument => !b.table.contains argument with
        | some missing => throw (.danglingReference a.name name missing)
        | none => pure () : Except (GrammarFault α) Unit) =
      refuse ((a.arguments.find? fun argument => !d.has argument).map fun missing =>
        .danglingReference a.name name missing) := by
    intro name a
    simp only [h.contains_eq]
    cases a.arguments.find? fun argument => !d.has argument <;> rfl
  simp only [hitem, forM_refuse, h.order_eq, List.findSome?_map]
  unfold Draft.dangling?
  rw [← List.head?_filterMap, ← List.head?_filterMap]
  refine congrArg (refuse ∘ List.head?) (List.filterMap_congr fun r hr => ?_)
  have hrule : d.rule? r.name = some r := Draft.rule?_eq_some_iff.2 ⟨hr, rfl⟩
  simp [h.alternatives_eq, hrule]

theorem Represents.build_eq (h : b.Represents d) :
    b.build =
      match d.fault? with
      | some fault => .error fault
      | none => .ok b := by
  have hopen : (b.alternatives b.fallback).find? (fun a => !a.isTerminal && less 0.0 a.weight) =
      d.openFallback? := by
    rw [h.alternatives_eq, h.fallback_eq]
    unfold Draft.openFallback?
    cases d.rule? d.fallback <;> rfl
  unfold build Draft.fault?
  rw [h.forM_order, hopen, h.contains_eq, h.contains_eq, h.start_eq, h.fallback_eq, h.name_eq]
  by_cases hstart : d.has d.start = true
  · by_cases hfallback : d.has d.fallback = true
    · simp only [hstart, hfallback]
      cases d.dangling? with
      | some fault => rfl
      | none => cases d.openFallback? <;> rfl
    · simp only [hstart, hfallback]
      rfl
  · simp only [hstart]
    rfl

theorem Represents.build_eq_error_iff (h : b.Represents d) {fault : GrammarFault α} :
    b.build = .error fault ↔ d.build = .error fault := by
  rw [h.build_eq, Draft.build_eq_error_iff]
  cases d.fault? <;> simp

theorem Represents.build_eq_ok_iff (h : b.Represents d) {g : Builder α} :
    b.build = .ok g ↔ d.fault? = none ∧ g = b := by
  rw [h.build_eq]
  cases d.fault? <;> simp [eq_comm]

end Build

/-! ## All calls -/

section Calls

variable {b : Builder Float} {d : Draft Float} {r : Rule Float}

/-- The order and the table agree, and every rule in the table is acceptable. -/
structure WellFormed (b : Builder Float) : Prop where
  nodup : b.order.Nodup
  mem_order_iff : ∀ name, name ∈ b.order ↔ name ∈ b.table
  acceptable : ∀ name alternatives, b.table[name]? = some alternatives →
    (Rule.mk name alternatives).IsAcceptable

theorem Represents.wellFormed (h : b.Represents d) : b.WellFormed := by
  constructor
  · rw [h.order_eq]
    exact d.distinct
  · intro name
    rw [h.order_eq, ← Draft.has_iff, ← h.contains_eq, Std.HashMap.contains_iff_mem]
  · intro name alternatives hfound
    rw [h.look_up, Option.map_eq_some_iff] at hfound
    obtain ⟨r, hrule, rfl⟩ := hfound
    obtain ⟨hr, rfl⟩ := Draft.rule?_eq_some_iff.1 hrule
    exact Rule.fault?_eq_none_iff_isAcceptable.1 (d.faultless r hr)

theorem Represents.exists_call_rule_iff (h : b.Represents d) :
    (∃ next, call (.rule r) b = .ok () next) ↔
      r.name ∉ d.rules.map (·.name) ∧ r.IsAcceptable := by
  have hacceptable : r.fault? b.name = none ↔ r.IsAcceptable :=
    Rule.fault?_eq_none_iff_isAcceptable
  rw [← Draft.has_iff, ← hacceptable]
  show (∃ next, addRule r b = .ok () next) ↔ _
  by_cases hhas : d.has r.name = true
  · rw [addRule_of_contains r b (by rw [h.contains_eq, hhas])]
    simp [hhas]
  · have hnew : b.table.contains r.name = false := by
      rw [h.contains_eq]
      simpa using hhas
    rw [addRule_of_not_contains r b hnew]
    cases r.fault? b.name <;> simp [hhas]

/-- Any calls on a new builder, whether they succeed or not, give the results that they give on a
new draft. After them a rule is added exactly if it is new and acceptable, and a call that fails
changes nothing; the order and the table agree; and a grammar is built exactly if the rules added
by then fit together, of these rules in their order and the symbols that were set last. -/
theorem acceptance_exact (name : String) (calls : List (Call Float)) :
    ∃ (results : List (Except (GrammarFault Float) Unit)) (b : Builder Float) (d : Draft Float),
      attempt call calls (new name) = (results, b) ∧
      attempt Draft.call calls (Draft.new name) = (results, d) ∧
      (∀ r, (∃ next, call (.rule r) b = .ok () next) ↔
        r.name ∉ (added calls results).map (·.name) ∧ r.IsAcceptable) ∧
      (∀ c fault next, call c b = .error fault next → next = b) ∧
      b.WellFormed ∧
      ((∃ g, b.build = .ok g) ↔
        FitTogether (lastStart calls) (lastFallback calls) (added calls results)) ∧
      (∀ g, b.build = .ok g →
        g.WellFormed ∧ g.name = name ∧ g.start = lastStart calls ∧ g.fallback = lastFallback calls ∧
          g.order = (added calls results).map (·.name) ∧ g.rules = added calls results) ∧
      (∀ g, d.build = .ok g →
        g.name = name ∧ g.start = lastStart calls ∧ g.fallback = lastFallback calls ∧
          g.rules = added calls results) ∧
      ∀ fault, b.build = .error fault ↔ d.build = .error fault := by
  obtain ⟨hresults, h⟩ := attempt_represents (α := Float) name calls
  obtain ⟨hname, hstart, hfallback, hrules⟩ := Draft.attempt_call_new (α := Float) calls name
  generalize attempt Draft.call calls (Draft.new (α := Float) name) = draftRun at *
  generalize attempt call calls (new (α := Float) name) = builderRun at *
  obtain ⟨results, d⟩ := draftRun
  obtain ⟨results', b⟩ := builderRun
  dsimp only at hresults h hname hstart hfallback hrules
  subst hresults
  refine ⟨results', b, d, rfl, rfl, ?_, ?_, h.wellFormed, ?_, ?_, ?_, ?_⟩
  · intro r
    rw [← hrules]
    exact h.exists_call_rule_iff
  · intro c fault next
    exact eq_of_call_error
  · rw [← hrules, ← hstart, ← hfallback, ← Draft.fault?_eq_none_iff_fitTogether]
    simp [h.build_eq_ok_iff]
  · intro g hg
    obtain ⟨-, rfl⟩ := h.build_eq_ok_iff.1 hg
    rw [h.name_eq, h.start_eq, h.fallback_eq, h.order_eq, h.rules_eq, ← hrules]
    exact ⟨h.wellFormed, hname, hstart, hfallback, rfl, rfl⟩
  · intro g hg
    obtain rfl := Draft.build_eq_ok_iff.1 hg
    exact ⟨hname, hstart, hfallback, hrules⟩
  · intro fault
    exact h.build_eq_error_iff

/-- Rules that are all added twice make a grammar: the second time they are refused. -/
theorem acceptance_perrig :
    ∃ (results : List (Except (GrammarFault Float) Unit)) (b g : Builder Float),
      attempt call ((Builtin.perrigRules ++ Builtin.perrigRules).map Call.rule) (new "perrig") =
        (results, b) ∧
      results.map (·.isOk) = [true, true, true, false, false, false] ∧
      b.build = .ok g ∧ g.rules = Builtin.perrigRules := by
  obtain ⟨results, b, d, hb, hd, -, -, -, -, hrules, -, herror⟩ :=
    acceptance_exact "perrig" ((Builtin.perrigRules ++ Builtin.perrigRules).map Call.rule)
  have hrun : (attempt Draft.call ((Builtin.perrigRules ++ Builtin.perrigRules).map Call.rule)
        (Draft.new (α := Float) "perrig")).1.map (·.isOk) =
          [true, true, true, false, false, false] ∧
      (attempt Draft.call ((Builtin.perrigRules ++ Builtin.perrigRules).map Call.rule)
        (Draft.new (α := Float) "perrig")).2.build.isOk = true := by
    decide +kernel
  rw [hd] at hrun
  obtain ⟨hresults, hbuild⟩ := hrun
  cases hg : b.build with
  | error fault =>
    rw [(herror fault).1 hg] at hbuild
    cases hbuild
  | ok g =>
    refine ⟨results, b, g, hb, hresults, hg, ?_⟩
    rw [(hrules g hg).2.2.2.2.2]
    match results, hresults with
    | [.ok _, .ok _, .ok _, .error _, .error _, .error _], _ => rfl

end Calls

end Builder

end SeededArt
