import Mathlib.Algebra.BigOperators.Group.List.Basic
import SeededArt.Proofs.Grammar.Builtin
import SeededArt.Proofs.Synthesis.Decay
/-!
# Counting the draws of a synthesis

A run is a derivation with the decay before the arguments of each call written down: from which
depth, and in how many steps (`Run`). `Grammar.Runs` is the expansion of symbols that writes it
down, and every expansion has one (`Expands.exists_runs`). With a source that counts, a run
takes the draws that it lists (`Runs.counted`): one for each node, one more for each constant, and
those of each decay (`Run.taken_eq`).
-/

namespace SeededArt

open Arithmetic SeededArt.Random

/-! ## Runs -/

namespace Derivation

variable {α : Type} (a : Alternative α)

def size : Derivation α → ℕ
  | constant _ _ => 1
  | node _ arguments => 1 + (arguments.map fun t => t.size).sum

def constants : Derivation α → ℕ
  | constant _ _ => 1
  | node _ arguments => (arguments.map fun t => t.constants).sum

@[simp] theorem size_constant (u : α) : (constant a u).size = 1 := by
  rw [size]

@[simp] theorem size_node (ts : List (Derivation α)) :
    (node a ts).size = 1 + (ts.map size).sum := by
  rw [size]

@[simp] theorem constants_constant (u : α) : (constant a u).constants = 1 := by
  rw [constants]

@[simp] theorem constants_node (ts : List (Derivation α)) :
    (node a ts).constants = (ts.map constants).sum := by
  rw [constants]

end Derivation

/-- How a symbol was expanded, and how the depth decayed before the arguments of each call. -/
inductive Run (α : Type) where
  /-- The leaf that stands for a constant, with the constant. -/
  | constant (chosen : Alternative α) (value : α)
  /-- Any other leaf. -/
  | leaf (chosen : Alternative α)
  /-- A composite alternative, the depth before it, by how many steps this depth decayed, and the
  runs of the arguments. -/
  | composite (chosen : Alternative α) (depth : Int) (steps : ℕ) (arguments : List (Run α))

namespace Run

variable {α : Type} (a : Alternative α)

/-- The derivation without the decays. -/
def derivation : Run α → Derivation α
  | constant chosen value => .constant chosen value
  | leaf chosen => .node chosen []
  | composite chosen _ _ arguments => .node chosen (arguments.map fun r => r.derivation)

/-- The draws that the decays take. -/
def loopDraws : Run α → ℕ
  | constant _ _ => 0
  | leaf _ => 0
  | composite _ depth steps arguments =>
    decayDraws depth steps + (arguments.map fun r => r.loopDraws).sum

/-- The draws of a run: a choice at each node, then the constant, or the decay and the arguments. -/
def taken : Run α → ℕ
  | constant _ _ => 2
  | leaf _ => 1
  | composite _ depth steps arguments =>
    1 + decayDraws depth steps + (arguments.map fun r => r.taken).sum

@[simp] theorem derivation_constant (u : α) : (constant a u).derivation = .constant a u := by
  rw [derivation]

@[simp] theorem derivation_leaf : (leaf a).derivation = .node a [] := by
  rw [derivation]

@[simp] theorem derivation_composite (depth : Int) (steps : ℕ) (rs : List (Run α)) :
    (composite a depth steps rs).derivation = .node a (rs.map derivation) := by
  rw [derivation]

@[simp] theorem loopDraws_constant (u : α) : (constant a u).loopDraws = 0 := by
  rw [loopDraws]

@[simp] theorem loopDraws_leaf : (leaf a).loopDraws = 0 := by
  rw [loopDraws]

@[simp] theorem loopDraws_composite (depth : Int) (steps : ℕ) (rs : List (Run α)) :
    (composite a depth steps rs).loopDraws =
      decayDraws depth steps + (rs.map loopDraws).sum := by
  rw [loopDraws]

@[simp] theorem taken_constant (u : α) : (constant a u).taken = 2 := by
  rw [taken]

@[simp] theorem taken_leaf : (leaf a).taken = 1 := by
  rw [taken]

@[simp] theorem taken_composite (depth : Int) (steps : ℕ) (rs : List (Run α)) :
    (composite a depth steps rs).taken =
      1 + decayDraws depth steps + (rs.map taken).sum := by
  rw [taken]

/-- The draws of a run are its nodes, its constants, and the draws of its decays. -/
theorem taken_eq (r : Run α) :
    r.taken = r.derivation.size + r.derivation.constants + r.loopDraws := by
  induction r using taken.induct with
  | case1 chosen value => simp
  | case2 chosen => simp
  | case3 chosen depth steps arguments ih =>
    have hsum : (arguments.map taken).sum =
        (arguments.map fun r => r.derivation.size).sum +
          (arguments.map fun r => r.derivation.constants).sum + (arguments.map loopDraws).sum := by
      rw [List.map_congr_left ih, List.sum_map_add, List.sum_map_add]
    simp only [taken_composite, derivation_composite, Derivation.size_node,
      Derivation.constants_node, loopDraws_composite, List.map_map, Function.comp_def, hsum]
    omega

end Run

section Counting

variable {σ α : Type} [Arithmetic α] [Source σ α]

/-- Expands symbols one after the other at one depth, and writes down every decay. -/
inductive Grammar.Runs (g : Grammar α) : List String → Int → σ → List (Run α) → σ → Prop
  | nil {depth : Int} {s : σ} : g.Runs [] depth s [] s
  /-- The leaf that stands for a constant takes one more draw, the constant. -/
  | constant {symbol : String} {symbols : List String} {depth : Int} {s s₁ s' : σ}
      {rule : Rule α} {a : Alternative α} {rs : List (Run α)} :
      g.rule? symbol = some rule →
      pick (·.weight) (g.ruleAtDepth rule depth).alternatives s = .ok a s₁ →
      a.isConstant = true →
      g.Runs symbols depth (Source.next s₁ : α × σ).2 rs s' →
      g.Runs (symbol :: symbols) depth s (.constant a (Source.next s₁ : α × σ).1 :: rs) s'
  /-- Every other leaf takes no further draw. -/
  | leaf {symbol : String} {symbols : List String} {depth : Int} {s s₁ s' : σ}
      {rule : Rule α} {a : Alternative α} {rs : List (Run α)} :
      g.rule? symbol = some rule →
      pick (·.weight) (g.ruleAtDepth rule depth).alternatives s = .ok a s₁ →
      a.isTerminal = true → a.isConstant = false →
      g.Runs symbols depth s₁ rs s' →
      g.Runs (symbol :: symbols) depth s (.leaf a :: rs) s'
  /-- The depth decays by its steps, and all arguments share what is left of it, less one. -/
  | composite {symbol : String} {symbols : List String} {depth : Int} {steps : ℕ} {s s₁ s₃ s' : σ}
      {rule : Rule α} {a : Alternative α} {children rs : List (Run α)} :
      g.rule? symbol = some rule →
      pick (·.weight) (g.ruleAtDepth rule depth).alternatives s = .ok a s₁ →
      a.isTerminal = false →
      steps = decaySteps α depth s₁ →
      g.Runs a.arguments (depth - steps - 1) (skip α (decayDraws depth steps) s₁) children s₃ →
      g.Runs symbols depth s₃ rs s' →
      g.Runs (symbol :: symbols) depth s (.composite a depth steps children :: rs) s'

namespace Grammar

variable {g : Grammar α} {symbols : List String} {depth : Int} {s s' : σ}

theorem Runs.expands {rs : List (Run α)} (h : g.Runs symbols depth s rs s') :
    g.Expands symbols depth s (rs.map Run.derivation) s' := by
  induction h with
  | nil => exact .nil
  | constant hrule hpick hconst _ ih =>
    rw [List.map_cons, Run.derivation_constant]
    exact .constant hrule hpick hconst ih
  | leaf hrule hpick hterm hconst _ ih =>
    rw [List.map_cons, Run.derivation_leaf]
    exact .leaf hrule hpick hterm hconst ih
  | composite hrule hpick hterm hsteps _ _ ihargs ih =>
    subst hsteps
    rw [List.map_cons, Run.derivation_composite]
    exact .composite hrule hpick hterm (decays_decaySteps α _ _) ihargs ih

theorem Expands.exists_runs {ts : List (Derivation α)} (h : g.Expands symbols depth s ts s') :
    ∃ rs, g.Runs symbols depth s rs s' ∧ ts = rs.map Run.derivation := by
  induction h with
  | nil => exact ⟨[], .nil, rfl⟩
  | constant hrule hpick hconst _ ih =>
    obtain ⟨rs, hrs, rfl⟩ := ih
    exact ⟨.constant _ _ :: rs, .constant hrule hpick hconst hrs, by simp⟩
  | leaf hrule hpick hterm hconst _ ih =>
    obtain ⟨rs, hrs, rfl⟩ := ih
    exact ⟨.leaf _ :: rs, .leaf hrule hpick hterm hconst hrs, by simp⟩
  | composite hrule hpick hterm hdecay _ _ ihargs ih =>
    obtain ⟨rfl, rfl⟩ := (decays_decaySteps α _ _).unique hdecay
    obtain ⟨children, hchildren, rfl⟩ := ihargs
    obtain ⟨rs, hrs, rfl⟩ := ih
    exact ⟨.composite _ _ _ children :: rs, .composite hrule hpick hterm rfl hchildren hrs, by simp⟩

theorem pick_counted {β : Type} {weight : β → α} {items : List β} {item : β}
    (h : pick weight items s = .ok item s') (taken : ℕ) :
    pick weight items (⟨s, taken⟩ : Counted σ) = .ok item ⟨s', taken + 1⟩ := by
  rw [pick_eq] at h
  rw [pick_eq, next_counted]
  split at h
  next hchoose =>
    cases h
    simp only [hchoose]
  next => cases h

/-- A source that counts has counted the draws of a run at its end. -/
theorem Runs.counted {rs : List (Run α)} (h : g.Runs symbols depth s rs s') (taken : ℕ) :
    g.Runs symbols depth (⟨s, taken⟩ : Counted σ) rs ⟨s', taken + (rs.map Run.taken).sum⟩ := by
  induction h generalizing taken with
  | nil => exact .nil
  | constant hrule hpick hconst _ ih =>
    have hrest := ih (taken + 1 + 1)
    rw [List.map_cons, List.sum_cons, Run.taken_constant, ← Nat.add_assoc]
    exact .constant hrule (pick_counted hpick taken) hconst hrest
  | leaf hrule hpick hterm hconst _ ih =>
    have hrest := ih (taken + 1)
    rw [List.map_cons, List.sum_cons, Run.taken_leaf, ← Nat.add_assoc]
    exact .leaf hrule (pick_counted hpick taken) hterm hconst hrest
  | @composite _ _ depth steps _ s₁ _ _ _ _ children _ hrule hpick hterm hsteps _ _ ihargs ih =>
    -- the arguments come after the choice and the decay, the other symbols after the arguments
    have hargs := ihargs (taken + 1 + decayDraws depth steps)
    have hrest := ih (taken + 1 + decayDraws depth steps + (children.map Run.taken).sum)
    rw [← skip_counted] at hargs
    rw [List.map_cons, List.sum_cons, Run.taken_composite]
    rw [← decaySteps_counted α depth s₁ (taken + 1)] at hsteps
    simp only [← Nat.add_assoc] at hrest ⊢
    exact .composite hrule (pick_counted hpick taken) hterm hsteps hargs hrest

/-- A depth of at least one decays as its draws say. And whenever a symbol synthesizes a text, the
draws taken are the nodes of its derivation, its constants, and the draws of the decays before the
arguments of its calls. -/
theorem synthesize_draws_exact (g : Grammar α) :
    (∀ (depth : Int) (s : σ), 1 ≤ depth →
        g.DecaysIn depth s (decaySteps α depth s) (decayDraws depth (decaySteps α depth s))) ∧
      ∀ (symbol : String) (depth : Int) (s s' : σ) (text : String),
        g.synthesize symbol depth s = .ok text s' →
        ∃ r, g.Runs [symbol] depth s [r] s' ∧ text = r.derivation.expr.text literal ∧
          ∀ taken, g.synthesize symbol depth (⟨s, taken⟩ : Counted σ) =
            .ok text ⟨s', taken + (r.derivation.size + r.derivation.constants + r.loopDraws)⟩ := by
  refine ⟨fun depth s h => g.decaysIn h s, fun symbol depth s s' text h => ?_⟩
  obtain ⟨t, ht, rfl, hheight⟩ := synthesize_eq_ok_iff.1 h
  obtain ⟨rs, hrs, hts⟩ := ht.exists_runs
  obtain ⟨r, rfl, rfl⟩ := List.map_eq_singleton_iff.1 hts.symm
  refine ⟨r, hrs, rfl, fun taken => ?_⟩
  have hcounted := (hrs.counted taken).expands
  rw [List.map_singleton, List.map_singleton, List.sum_singleton, Run.taken_eq] at hcounted
  exact synthesize_eq_ok_iff.2 ⟨_, hcounted, rfl, hheight⟩

end Grammar

end Counting

/-! ## A run by a script -/

/-- Rules without a name in common between the fallback rule and the others. -/
def splitRules : List (Rule Float) :=
  [⟨"A", [⟨"p", [], 0.5, "leaf_p"⟩, ⟨"q", [], 0.5, "leaf_q"⟩]⟩,
    ⟨"C", [⟨"r", [], 0.5, "deep_r"⟩, ⟨"twice", ["C", "C"], 0.5, "twice"⟩]⟩,
    ⟨"E", [⟨"E", ["C"], 1.0, "E"⟩]⟩]

/-- Chooses `E`, whose depth `2` does not decay, and then `twice`, whose depth `1` decays in two
steps, so that both arguments are taken from the fallback rule. -/
def splitScript : Script Float := ⟨[0.0, 0.9, 0.9, 0.1, 0.1, 0.1, 0.9], 0.99⟩

/-- Whether a source synthesizes a text, and takes so many draws for it. -/
def saysIn {σ : Type} [Source σ Float] (g : Grammar Float) (depth : Int) (s : σ) (text : String)
    (taken : ℕ) : Bool :=
  match g.synthesize "E" depth s, g.synthesize "E" depth (⟨s, 0⟩ : Counted σ) with
  | .ok said _, .ok _ c => said == text && c.taken == taken
  | _, _ => false

theorem exists_of_saysIn {σ : Type} [Source σ Float] {g : Grammar Float} {depth : Int} {s : σ}
    {text : String} {taken : ℕ} (h : saysIn g depth s text taken = true) :
    ∃ s' said c, g.synthesize "E" depth s = .ok text s' ∧
      g.synthesize "E" depth (⟨s, 0⟩ : Counted σ) = .ok said c ∧ c.taken = taken := by
  unfold saysIn at h
  split at h
  next said s' said' c hsaid hcounted =>
    rw [Bool.and_eq_true, beq_iff_eq, beq_iff_eq] at h
    obtain ⟨rfl, rfl⟩ := h
    exact ⟨s', said', c, hsaid, hcounted, rfl⟩
  next => cases h

/-- Four nodes, one draw for the decay of `E` and two for that of `twice`. -/
theorem synthesize_draws_split :
    ∃ (g : Grammar Float) (s' : Script Float) (r : Run Float),
      Builtin.assemble "split" splitRules = .ok g ∧ (1 : Int) ≤ 1 ∧
      g.DecaysIn 1 (skip Float 3 splitScript) 2 2 ∧
      g.synthesize "E" 2 splitScript = .ok "E(twice(leaf_p(), leaf_q()))" s' ∧
      g.Runs ["E"] 2 splitScript [r] s' ∧
      r.derivation.size + r.derivation.constants + r.loopDraws = 7 := by
  have hcheck : Builtin.assembles (fun g : Grammar Float =>
      saysIn g 2 splitScript "E(twice(leaf_p(), leaf_q()))" 7) "split" splitRules = true := by
    decide +kernel
  obtain ⟨g, hg, hsays⟩ := Builtin.exists_assemble hcheck
  obtain ⟨s', said, c, hsaid, hcounted, htaken⟩ := exists_of_saysIn hsays
  obtain ⟨hdecays, hruns⟩ := g.synthesize_draws_exact (σ := Script Float)
  obtain ⟨r, hr, -, hdraws⟩ := hruns "E" 2 splitScript s' _ hsaid
  have hsteps : decaySteps Float 1 (skip Float 3 splitScript) = 2 := by decide +kernel
  have hdecay := hdecays 1 (skip Float 3 splitScript) le_rfl
  rw [hsteps] at hdecay
  refine ⟨g, s', r, hg, le_rfl, hdecay, hsaid, hr, ?_⟩
  rw [hdraws 0] at hcounted
  cases hcounted
  simpa using htaken

end SeededArt
