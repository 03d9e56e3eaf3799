import SeededArt.Proofs.Grammar.Acceptance
/-!
# Calls on a grammar in the making

A grammar is made by calls that set the start symbol, set the fallback rule or add a rule. The
caller may go on after a call that failed: `attempt` runs the calls one after another and answers
with the result of each and the state after the last. Two runs that agree call by call agree as a
whole (`attempt_alike`).

On a draft, a run leaves the rules of the calls that succeeded, in their order, and the symbols
that were set last (`Draft.attempt_call`).
-/

namespace SeededArt

/-- A call on a grammar in the making. -/
inductive Call (α : Type) where
  | start (symbol : String)
  | fallback (symbol : String)
  | rule (r : Rule α)

/-! ## Runs that go on after a failure -/

section Attempt

variable {ε σ τ β : Type}

/-- A result apart from the state that comes with it. -/
def apart : EStateM.Result ε σ Unit → Except ε Unit × σ
  | .ok _ s => (.ok (), s)
  | .error fault s => (.error fault, s)

@[simp] theorem apart_ok (s : σ) : apart (.ok () s : EStateM.Result ε σ Unit) = (.ok (), s) := rfl

@[simp] theorem apart_error (fault : ε) (s : σ) :
    apart (.error fault s : EStateM.Result ε σ Unit) = (.error fault, s) := rfl

/-- Runs calls one after another, also after one that failed, with the state that it left. -/
def attempt (run : β → EStateM ε σ Unit) : List β → σ → List (Except ε Unit) × σ
  | [], s => ([], s)
  | call :: calls, s =>
    let first := apart (run call s)
    let others := attempt run calls first.2
    (first.1 :: others.1, others.2)

/-- Two results are the same and come with related states. -/
def Alike (R : σ → τ → Prop) (x : Except ε Unit × σ) (y : Except ε Unit × τ) : Prop :=
  x.1 = y.1 ∧ R x.2 y.2

theorem attempt_alike {R : σ → τ → Prop} {run : β → EStateM ε σ Unit}
    {run' : β → EStateM ε τ Unit}
    (hstep : ∀ call s t, R s t → Alike R (apart (run call s)) (apart (run' call t)))
    (calls : List β) {s : σ} {t : τ} (h : R s t) :
    (attempt run calls s).1 = (attempt run' calls t).1 ∧
      R (attempt run calls s).2 (attempt run' calls t).2 := by
  induction calls generalizing s t with
  | nil => exact ⟨rfl, h⟩
  | cons call calls ih =>
    obtain ⟨hresult, hstate⟩ := hstep call s t h
    obtain ⟨hresults, hlast⟩ := ih hstate
    unfold attempt
    exact ⟨congrArg₂ List.cons hresult hresults, hlast⟩

end Attempt

/-! ## What the calls say -/

section History

variable {ε α : Type}

def Call.startAfter (symbol : String) : Call α → String
  | .start new => new
  | _ => symbol

def Call.fallbackAfter (symbol : String) : Call α → String
  | .fallback new => new
  | _ => symbol

/-- The start symbol that was set last. -/
def lastStart (calls : List (Call α)) : String := calls.foldl Call.startAfter defaultStart

/-- The fallback rule that was set last. -/
def lastFallback (calls : List (Call α)) : String := calls.foldl Call.fallbackAfter defaultFallback

/-- The rules of the calls that succeeded. -/
def added : List (Call α) → List (Except ε Unit) → List (Rule α)
  | .rule r :: calls, .ok _ :: results => r :: added calls results
  | _ :: calls, _ :: results => added calls results
  | _, _ => []

end History

/-! ## Calls on a draft -/

namespace Draft

variable {α : Type} [Arithmetic α]

/-- Makes a call. If it fails, the draft stays as it is. -/
def call : Call α → EStateM (GrammarFault α) (Draft α) Unit
  | .start symbol => modify fun d => { d with start := symbol }
  | .fallback symbol => modify fun d => { d with fallback := symbol }
  | .rule r => fun d =>
    match d.addRule r with
    | .ok longer => .ok () longer
    | .error fault => .error fault d

theorem call_start (symbol : String) (d : Draft α) :
    call (.start symbol) d = .ok () { d with start := symbol } := rfl

theorem call_fallback (symbol : String) (d : Draft α) :
    call (.fallback symbol) d = .ok () { d with fallback := symbol } := rfl

theorem call_rule (r : Rule α) (d : Draft α) :
    call (.rule r) d =
      match d.addRule r with
      | .ok longer => .ok () longer
      | .error fault => .error fault d := rfl

theorem call_rule_cases (r : Rule α) (d : Draft α) :
    (d.has r.name = true ∧ call (.rule r) d = .error (.repeatedRule r.name d.name) d) ∨
    (∃ fault, d.has r.name = false ∧ r.fault? d.name = some fault ∧
      call (.rule r) d = .error fault d) ∨
    (∃ longer, d.has r.name = false ∧ r.fault? d.name = none ∧ d.IsExtendedBy r longer ∧
      call (.rule r) d = .ok () longer) := by
  rw [call_rule]
  cases hhas : d.has r.name with
  | true =>
    refine .inl ⟨rfl, ?_⟩
    rw [addRule_of_has hhas]
  | false =>
    cases hfault : r.fault? d.name with
    | some fault =>
      refine .inr (.inl ⟨fault, rfl, rfl, ?_⟩)
      rw [addRule_of_fault hhas hfault]
    | none =>
      obtain ⟨longer, hadd, hextended⟩ := exists_addRule hhas hfault
      refine .inr (.inr ⟨longer, rfl, rfl, hextended, ?_⟩)
      rw [hadd]

/-- A run leaves the rules of the calls that succeeded and the symbols that were set last. -/
theorem attempt_call (calls : List (Call α)) (d : Draft α) :
    (attempt call calls d).2.name = d.name ∧
      (attempt call calls d).2.start = calls.foldl Call.startAfter d.start ∧
      (attempt call calls d).2.fallback = calls.foldl Call.fallbackAfter d.fallback ∧
      (attempt call calls d).2.rules = d.rules ++ added calls (attempt call calls d).1 := by
  induction calls generalizing d with
  | nil => exact ⟨rfl, rfl, rfl, (List.append_nil _).symm⟩
  | cons c calls ih =>
    unfold attempt
    cases c with
    | start symbol =>
      rw [call_start]
      exact ih { d with start := symbol }
    | fallback symbol =>
      rw [call_fallback]
      exact ih { d with fallback := symbol }
    | rule r =>
      obtain ⟨-, h⟩ | ⟨fault, -, -, h⟩ | ⟨longer, -, -, hlonger, h⟩ := call_rule_cases r d
      · rw [h]
        exact ih d
      · rw [h]
        exact ih d
      · rw [h]
        obtain ⟨hname, hstart, hfallback, hrules⟩ := ih longer
        rw [hlonger.name_eq] at hname
        rw [hlonger.start_eq] at hstart
        rw [hlonger.fallback_eq] at hfallback
        rw [hlonger.rules_eq, List.append_assoc] at hrules
        exact ⟨hname, hstart, hfallback, hrules⟩

theorem attempt_call_new (calls : List (Call α)) (name : String) :
    (attempt call calls (new name)).2.name = name ∧
      (attempt call calls (new name)).2.start = lastStart calls ∧
      (attempt call calls (new name)).2.fallback = lastFallback calls ∧
      (attempt call calls (new name)).2.rules = added calls (attempt call calls (new name)).1 :=
  attempt_call calls (new name)

end Draft

end SeededArt
