import SeededArt.Proofs.Random.Draws
import SeededArt.Proofs.Sampling.Rounded
import SeededArt.Synthesis
/-!
# Expansions as derivations

A derivation says how symbols were expanded: which alternative was chosen for each, how its
arguments were expanded, and which constant was drawn. `Expands` is the step relation of expansion:
it expands symbols one after the other at one depth and threads the source through them. It lists
every choice and every draw, and nothing else is left to an expansion: `expand` returns an
expression exactly if it is the expression of an expansion of at most so many levels
(`expand_eq_ok_iff`).
-/

namespace SeededArt

open Arithmetic SeededArt.Random

/-- How a symbol was expanded. -/
inductive Derivation (α : Type) where
  /-- The leaf that stands for a constant, with the constant. -/
  | constant (chosen : Alternative α) (value : α)
  /-- Any other alternative, with the derivations of its arguments. -/
  | node (chosen : Alternative α) (arguments : List (Derivation α))

namespace Derivation

variable {α : Type}

def expr : Derivation α → Expr α
  | constant _ value => .number value
  | node chosen arguments => .call chosen.emit (arguments.map fun t => t.expr)

@[simp] theorem expr_constant (a : Alternative α) (u : α) : (constant a u).expr = .number u := by
  rw [expr]

@[simp] theorem expr_node (a : Alternative α) (ts : List (Derivation α)) :
    (node a ts).expr = .call a.emit (ts.map expr) := by
  rw [expr]

end Derivation

theorem Alternative.isTerminal_of_isConstant {α : Type} {a : Alternative α}
    (h : a.isConstant = true) : a.isTerminal = true := by
  rw [Alternative.isConstant, Bool.and_eq_true] at h
  exact h.1

section Decay

variable {σ : Type} (α : Type) [Arithmetic α] [Source σ α]

/-- A depth decays by one for each draw below one half, as long as it is not negative. -/
inductive Decays : Int → σ → Int → σ → Prop
  | negative {depth : Int} {s : σ} : depth < 0 → Decays depth s depth s
  | stop {depth : Int} {s : σ} : 0 ≤ depth → less (Source.next s : α × σ).1 0.5 = false →
      Decays depth s depth (Source.next s : α × σ).2
  | step {depth left : Int} {s s' : σ} : 0 ≤ depth → less (Source.next s : α × σ).1 0.5 = true →
      Decays (depth - 1) (Source.next s : α × σ).2 left s' → Decays depth s left s'

variable {α} {ε : Type} {depth left : Int} {s s' : σ}

theorem decay_succ (steps : Nat) (depth : Int) (s : σ) :
    decay (α := α) (ε := ε) (steps + 1) depth s =
      if less (Source.next s : α × σ).1 0.5 then
        decay (α := α) steps (depth - 1) (Source.next s : α × σ).2
      else .ok depth (Source.next s : α × σ).2 := by
  rw [decay, bind_apply, draw_apply]
  simp only
  split <;> rfl

theorem decay_of_decays (h : Decays α depth s left s') :
    decay (α := α) (ε := ε) (depth + 1).toNat depth s = .ok left s' := by
  induction h with
  | @negative depth s hneg =>
    rw [show (depth + 1).toNat = 0 by omega]
    rfl
  | @stop depth s hpos hless =>
    rw [show (depth + 1).toNat = depth.toNat + 1 by omega, decay_succ, hless, if_neg (by simp)]
  | @step depth left s s' hpos hless _ ih =>
    rw [show (depth + 1).toNat = (depth - 1 + 1).toNat + 1 by omega, decay_succ, hless,
      if_pos rfl]
    exact ih

/-- Decay always ends. -/
theorem exists_decays (depth : Int) (s : σ) : ∃ left s', Decays α depth s left s' := by
  induction hn : (depth + 1).toNat generalizing depth s with
  | zero => exact ⟨depth, s, .negative (by omega)⟩
  | succ n ih =>
    cases hless : less (Source.next s : α × σ).1 0.5 with
    | false => exact ⟨depth, _, .stop (by omega) hless⟩
    | true =>
      obtain ⟨left, s', h⟩ := ih (depth - 1) (Source.next s : α × σ).2 (by omega)
      exact ⟨left, s', .step (by omega) hless h⟩

theorem decay_eq_ok_iff :
    decay (α := α) (ε := ε) (depth + 1).toNat depth s = .ok left s' ↔
      Decays α depth s left s' := by
  constructor
  · intro h
    obtain ⟨left', s'', h'⟩ := exists_decays (α := α) depth s
    rw [decay_of_decays h'] at h
    cases h
    exact h'
  · exact decay_of_decays

theorem Decays.bounds (h : Decays α depth s left s') (hpos : 0 ≤ depth) :
    -1 ≤ left ∧ left ≤ depth := by
  induction h with
  | negative hneg => omega
  | stop => omega
  | @step depth left s s' _ _ h' ih =>
    by_cases hd : 0 ≤ depth - 1
    · have := ih hd
      omega
    · cases h' with
      | negative => omega
      | stop => omega
      | step => omega

theorem Decays.unique {left' : Int} {s'' : σ} (h : Decays α depth s left s')
    (h' : Decays α depth s left' s'') : left' = left ∧ s'' = s' := by
  induction h with
  | negative hneg =>
    cases h' with
    | negative => exact ⟨rfl, rfl⟩
    | stop => omega
    | step => omega
  | stop hpos hless =>
    cases h' with
    | negative => omega
    | stop => exact ⟨rfl, rfl⟩
    | step _ hless' => rw [hless] at hless'; cases hless'
  | step hpos hless _ ih =>
    cases h' with
    | negative => omega
    | stop _ hless' => rw [hless] at hless'; cases hless'
    | step _ _ h' => exact ih h'

theorem Decays.allDraws {P : α → Prop} (h : Decays α depth s left s') (hs : AllDraws P s) :
    AllDraws P s' := by
  induction h with
  | negative => exact hs
  | stop => exact hs.tail
  | step _ _ _ ih => exact ih hs.tail

theorem allDraws_of_pick {P : α → Prop} {β : Type} {weight : β → α} {items : List β} {item : β}
    (h : pick weight items s = .ok item s') (hs : AllDraws P s) : AllDraws P s' := by
  rw [pick_eq] at h
  split at h
  next =>
    cases h
    exact hs.tail
  next => cases h

theorem mem_of_pick {β : Type} {weight : β → α} {items : List β} {item : β}
    (h : pick weight items s = .ok item s') : item ∈ items := by
  rw [pick_eq] at h
  split at h
  next hchoose =>
    cases h
    exact mem_of_choose hchoose
  next => cases h

end Decay

section Height

variable {ν : Type}

theorem Expr.height_pos (e : Expr ν) : 0 < e.height := by
  cases e with
  | number => simp [Expr.height]
  | call => simp [Expr.height]

theorem Expr.height_call_le_iff {f : String} {args : List (Expr ν)} {n : Nat} :
    (Expr.call f args).height ≤ n + 1 ↔ ∀ e ∈ args, e.height ≤ n := by
  rw [Expr.height, Nat.add_le_add_iff_right]
  induction args with
  | nil => simp
  | cons e rest ih => simp [ih]

end Height

section Expansion

variable {σ α : Type} [Arithmetic α] [Source σ α]

/-- Expands symbols one after the other at one depth. -/
inductive Grammar.Expands (g : Grammar α) :
    List String → Int → σ → List (Derivation α) → σ → Prop
  | nil {depth : Int} {s : σ} : g.Expands [] depth s [] s
  /-- The leaf that stands for a constant takes one more draw, the constant. -/
  | constant {symbol : String} {symbols : List String} {depth : Int} {s s₁ s' : σ}
      {rule : Rule α} {a : Alternative α} {ts : List (Derivation α)} :
      g.rule? symbol = some rule →
      pick (·.weight) (g.ruleAtDepth rule depth).alternatives s = .ok a s₁ →
      a.isConstant = true →
      g.Expands symbols depth (Source.next s₁ : α × σ).2 ts s' →
      g.Expands (symbol :: symbols) depth s (.constant a (Source.next s₁ : α × σ).1 :: ts) s'
  /-- Every other leaf takes no further draw. -/
  | leaf {symbol : String} {symbols : List String} {depth : Int} {s s₁ s' : σ}
      {rule : Rule α} {a : Alternative α} {ts : List (Derivation α)} :
      g.rule? symbol = some rule →
      pick (·.weight) (g.ruleAtDepth rule depth).alternatives s = .ok a s₁ →
      a.isTerminal = true → a.isConstant = false →
      g.Expands symbols depth s₁ ts s' →
      g.Expands (symbol :: symbols) depth s (.node a [] :: ts) s'
  /-- The depth decays once, and all arguments share what is left of it, less one. -/
  | composite {symbol : String} {symbols : List String} {depth left : Int} {s s₁ s₂ s₃ s' : σ}
      {rule : Rule α} {a : Alternative α} {children ts : List (Derivation α)} :
      g.rule? symbol = some rule →
      pick (·.weight) (g.ruleAtDepth rule depth).alternatives s = .ok a s₁ →
      a.isTerminal = false →
      Decays α depth s₁ left s₂ →
      g.Expands a.arguments (left - 1) s₂ children s₃ →
      g.Expands symbols depth s₃ ts s' →
      g.Expands (symbol :: symbols) depth s (.node a children :: ts) s'

namespace Grammar

variable {g : Grammar α} {depth : Int} {s s' : σ}

theorem Expands.allDraws {P : α → Prop} {symbols : List String} {ts : List (Derivation α)}
    (h : g.Expands symbols depth s ts s') (hs : AllDraws P s) : AllDraws P s' := by
  induction h with
  | nil => exact hs
  | constant _ hpick _ _ ih => exact ih (allDraws_of_pick hpick hs).tail
  | leaf _ hpick _ _ _ ih => exact ih (allDraws_of_pick hpick hs)
  | composite _ hpick _ hdecay _ _ ihargs ih =>
    exact ih (ihargs (hdecay.allDraws (allDraws_of_pick hpick hs)))

theorem Expands.length_eq {symbols : List String} {ts : List (Derivation α)}
    (h : g.Expands symbols depth s ts s') : ts.length = symbols.length := by
  induction h with
  | nil => rfl
  | constant _ _ _ _ ih => exact congrArg Nat.succ ih
  | leaf _ _ _ _ _ ih => exact congrArg Nat.succ ih
  | composite _ _ _ _ _ _ _ ih => exact congrArg Nat.succ ih

/-- What follows the choice for the first symbol: the chosen alternative decides which of the three
steps it is. -/
theorem Expands.of_cons {symbol : String} {symbols : List String} {rule : Rule α}
    {a : Alternative α} {s₁ : σ} {ts : List (Derivation α)}
    (h : g.Expands (symbol :: symbols) depth s ts s') (hrule : g.rule? symbol = some rule)
    (hpick : pick (·.weight) (g.ruleAtDepth rule depth).alternatives s = .ok a s₁) :
    (a.isConstant = true ∧ ∃ rest, ts = .constant a (Source.next s₁ : α × σ).1 :: rest ∧
        g.Expands symbols depth (Source.next s₁ : α × σ).2 rest s') ∨
      (a.isTerminal = true ∧ a.isConstant = false ∧ ∃ rest, ts = .node a [] :: rest ∧
        g.Expands symbols depth s₁ rest s') ∨
      (a.isTerminal = false ∧ ∃ left s₂ children s₃ rest, ts = .node a children :: rest ∧
        Decays α depth s₁ left s₂ ∧ g.Expands a.arguments (left - 1) s₂ children s₃ ∧
        g.Expands symbols depth s₃ rest s') := by
  have hsame {rule' : Rule α} {a' : Alternative α} {s₂ : σ} (hrule' : g.rule? symbol = some rule')
      (hpick' : pick (·.weight) (g.ruleAtDepth rule' depth).alternatives s = .ok a' s₂) :
      a' = a ∧ s₂ = s₁ := by
    rw [hrule] at hrule'
    cases hrule'
    rw [hpick] at hpick'
    cases hpick'
    exact ⟨rfl, rfl⟩
  cases h with
  | constant hrule' hpick' hconst hrest =>
    obtain ⟨rfl, rfl⟩ := hsame hrule' hpick'
    exact .inl ⟨hconst, _, rfl, hrest⟩
  | leaf hrule' hpick' hterm hconst hrest =>
    obtain ⟨rfl, rfl⟩ := hsame hrule' hpick'
    exact .inr (.inl ⟨hterm, hconst, _, rfl, hrest⟩)
  | composite hrule' hpick' hterm hdecay hargs hrest =>
    obtain ⟨rfl, rfl⟩ := hsame hrule' hpick'
    exact .inr (.inr ⟨hterm, _, _, _, _, _, rfl, hdecay, hargs, hrest⟩)

/-- A source has one expansion of its symbols. -/
theorem Expands.unique {symbols : List String} {ts us : List (Derivation α)} {s'' : σ}
    (h : g.Expands symbols depth s ts s') (h' : g.Expands symbols depth s us s'') :
    us = ts ∧ s'' = s' := by
  induction h generalizing us s'' with
  | nil =>
    cases h'
    exact ⟨rfl, rfl⟩
  | constant hrule hpick hconst _ ih =>
    have hterm := Alternative.isTerminal_of_isConstant hconst
    rcases h'.of_cons hrule hpick with ⟨-, rest, rfl, hrest⟩ | ⟨-, hconst', -⟩ | ⟨hterm', -⟩
    · obtain ⟨rfl, rfl⟩ := ih hrest
      exact ⟨rfl, rfl⟩
    · simp [hconst] at hconst'
    · simp [hterm] at hterm'
  | leaf hrule hpick hterm hconst _ ih =>
    rcases h'.of_cons hrule hpick with ⟨hconst', -⟩ | ⟨-, -, rest, rfl, hrest⟩ | ⟨hterm', -⟩
    · simp [hconst] at hconst'
    · obtain ⟨rfl, rfl⟩ := ih hrest
      exact ⟨rfl, rfl⟩
    · simp [hterm] at hterm'
  | composite hrule hpick hterm hdecay _ _ ihargs ih =>
    rcases h'.of_cons hrule hpick with ⟨hconst', -⟩ | ⟨hterm', -⟩ |
      ⟨-, left, s₂, children, s₃, rest, rfl, hdecay', hargs, hrest⟩
    · simp [Alternative.isTerminal_of_isConstant hconst'] at hterm
    · simp [hterm] at hterm'
    · -- the same depth is left, so the arguments start from the same draws
      obtain ⟨rfl, rfl⟩ := hdecay.unique hdecay'
      obtain ⟨rfl, rfl⟩ := ihargs hargs
      obtain ⟨rfl, rfl⟩ := ih hrest
      exact ⟨rfl, rfl⟩

theorem expand_succ (g : Grammar α) (levels : Nat) (symbol : String) (depth : Int) (s : σ) :
    g.expand (levels + 1) symbol depth s =
      match g.rule? symbol with
      | none => .error (.unknownRule symbol g.name) s
      | some rule =>
        match pick (·.weight) (g.ruleAtDepth rule depth).alternatives s with
        | .error fault s₁ => .error (.nothingChosen fault) s₁
        | .ok a s₁ =>
          if a.isTerminal then
            if a.isConstant then
              .ok (.number (Source.next s₁ : α × σ).1) (Source.next s₁ : α × σ).2
            else .ok (.call a.emit []) s₁
          else
            match decay (α := α) (depth + 1).toNat depth s₁ with
            | .error fault s₂ => .error fault s₂
            | .ok left s₂ =>
              match (a.arguments.mapM fun argument => g.expand levels argument (left - 1)) s₂ with
              | .error fault s₃ => .error fault s₃
              | .ok arguments s₃ => .ok (.call a.emit arguments) s₃ := by
  rw [expand, require]
  cases g.rule? symbol with
  | none => rfl
  | some rule =>
    simp only [bind_apply, pure_apply, pickAlternative]
    cases pick (·.weight) (g.ruleAtDepth rule depth).alternatives s with
    | error fault s₁ => rfl
    | ok a s₁ =>
      simp only
      split
      next =>
        split
        next => rfl
        next => rfl
      next =>
        simp only [bind_apply]
        cases decay (α := α) (depth + 1).toNat depth s₁ with
        | error fault s₂ => rfl
        | ok left s₂ =>
          simp only
          cases (a.arguments.mapM fun argument => g.expand levels argument (left - 1)) s₂ <;> rfl

/-! ## Expressions of derivations -/

section Steps

variable {levels : Nat} {symbol : String} {symbols : List String} {s₁ s₂ s₃ : σ} {rule : Rule α}
  {a : Alternative α} {left : Int}

theorem expand_constant (hrule : g.rule? symbol = some rule)
    (hpick : pick (·.weight) (g.ruleAtDepth rule depth).alternatives s = .ok a s₁)
    (hconst : a.isConstant = true) :
    g.expand (levels + 1) symbol depth s =
      .ok (.number (Source.next s₁ : α × σ).1) (Source.next s₁ : α × σ).2 := by
  rw [expand_succ]
  simp only [hrule, hpick, hconst, Alternative.isTerminal_of_isConstant hconst, if_true]

theorem expand_leaf (hrule : g.rule? symbol = some rule)
    (hpick : pick (·.weight) (g.ruleAtDepth rule depth).alternatives s = .ok a s₁)
    (hterm : a.isTerminal = true) (hconst : a.isConstant = false) :
    g.expand (levels + 1) symbol depth s = .ok (.call a.emit []) s₁ := by
  rw [expand_succ]
  simp [hrule, hpick, hterm, hconst]

theorem expand_composite {es : List (Expr α)} (hrule : g.rule? symbol = some rule)
    (hpick : pick (·.weight) (g.ruleAtDepth rule depth).alternatives s = .ok a s₁)
    (hterm : a.isTerminal = false) (hdecay : Decays α depth s₁ left s₂)
    (hargs : (a.arguments.mapM fun argument => g.expand levels argument (left - 1)) s₂ =
      .ok es s₃) :
    g.expand (levels + 1) symbol depth s = .ok (.call a.emit es) s₃ := by
  rw [expand_succ]
  simp [hrule, hpick, hterm, decay_of_decays hdecay, hargs]

end Steps

theorem Expands.mapM_expand {symbols : List String} {ts : List (Derivation α)}
    (h : g.Expands symbols depth s ts s') {levels : Nat}
    (hlevels : ∀ t ∈ ts, t.expr.height ≤ levels) :
    (symbols.mapM fun x => g.expand levels x depth) s = .ok (ts.map (·.expr)) s' := by
  induction h generalizing levels with
  | nil => rfl
  | constant hrule hpick hconst _ ih =>
    rw [List.forall_mem_cons] at hlevels
    obtain ⟨n, rfl⟩ := Nat.exists_eq_add_of_lt (lt_of_lt_of_le (Expr.height_pos _) hlevels.1)
    rw [List.map_cons, Derivation.expr_constant]
    exact mapM_cons_of_ok (expand_constant hrule hpick hconst) (ih hlevels.2)
  | leaf hrule hpick hterm hconst _ ih =>
    rw [List.forall_mem_cons] at hlevels
    obtain ⟨n, rfl⟩ := Nat.exists_eq_add_of_lt (lt_of_lt_of_le (Expr.height_pos _) hlevels.1)
    rw [List.map_cons, Derivation.expr_node]
    exact mapM_cons_of_ok (expand_leaf hrule hpick hterm hconst) (ih hlevels.2)
  | composite hrule hpick hterm hdecay _ _ ihargs ih =>
    rw [List.forall_mem_cons] at hlevels
    obtain ⟨n, rfl⟩ := Nat.exists_eq_add_of_lt (lt_of_lt_of_le (Expr.height_pos _) hlevels.1)
    obtain ⟨hfirst, hrest⟩ := hlevels
    rw [Derivation.expr_node, Expr.height_call_le_iff] at hfirst
    rw [List.map_cons, Derivation.expr_node]
    refine mapM_cons_of_ok (expand_composite hrule hpick hterm hdecay (ihargs ?_)) (ih hrest)
    simpa using hfirst

/-- What one level returns comes from a choice, and from expansions of its arguments. -/
theorem expands_of_expand_succ {levels : Nat} {symbol : String} {e : Expr α}
    (h : g.expand (levels + 1) symbol depth s = .ok e s')
    (ih : ∀ {symbols : List String} {depth : Int} {s s' : σ} {es : List (Expr α)},
      (symbols.mapM fun x => g.expand levels x depth) s = .ok es s' →
        ∃ ts, g.Expands symbols depth s ts s' ∧ es = ts.map (·.expr) ∧
          ∀ e ∈ es, e.height ≤ levels) :
    ∃ t, g.Expands [symbol] depth s [t] s' ∧ e = t.expr ∧ e.height ≤ levels + 1 := by
  rw [expand_succ] at h
  split at h
  next => cases h
  next rule hrule =>
    split at h
    next => cases h
    next a s₁ hpick =>
      split at h
      next hterm =>
        split at h
        next hconst =>
          cases h
          exact ⟨.constant a _, .constant hrule hpick hconst .nil, by simp, by simp [Expr.height]⟩
        next hconst =>
          cases h
          exact ⟨.node a [], .leaf hrule hpick hterm (by simpa using hconst) .nil, by simp,
            by simp [Expr.height]⟩
      next hterm =>
        split at h
        next => cases h
        next left s₂ hdecay =>
          split at h
          next => cases h
          next es s₃ hargs =>
            cases h
            obtain ⟨ts, hts, rfl, hheight⟩ := ih hargs
            refine ⟨.node a ts, .composite hrule hpick (by simpa using hterm)
              (decay_eq_ok_iff.1 hdecay) hts .nil, by simp, ?_⟩
            rwa [Expr.height_call_le_iff]

theorem expands_cons_iff {symbol : String} {symbols : List String} {t : Derivation α}
    {ts : List (Derivation α)} :
    g.Expands (symbol :: symbols) depth s (t :: ts) s' ↔
      ∃ s₁, g.Expands [symbol] depth s [t] s₁ ∧ g.Expands symbols depth s₁ ts s' := by
  constructor
  · intro h
    cases h with
    | constant hrule hpick hconst h => exact ⟨_, .constant hrule hpick hconst .nil, h⟩
    | leaf hrule hpick hterm hconst h => exact ⟨_, .leaf hrule hpick hterm hconst .nil, h⟩
    | composite hrule hpick hterm hdecay hargs h =>
      exact ⟨_, .composite hrule hpick hterm hdecay hargs .nil, h⟩
  · rintro ⟨s₁, h, hrest⟩
    cases h with
    | constant hrule hpick hconst h =>
      cases h
      exact .constant hrule hpick hconst hrest
    | leaf hrule hpick hterm hconst h =>
      cases h
      exact .leaf hrule hpick hterm hconst hrest
    | composite hrule hpick hterm hdecay hargs h =>
      cases h
      exact .composite hrule hpick hterm hdecay hargs hrest

theorem expands_of_mapM_expand {levels : Nat} {symbols : List String} {es : List (Expr α)}
    (h : (symbols.mapM fun x => g.expand levels x depth) s = .ok es s') :
    ∃ ts, g.Expands symbols depth s ts s' ∧ es = ts.map (·.expr) ∧
      ∀ e ∈ es, e.height ≤ levels := by
  induction levels generalizing symbols depth s s' es with
  | zero =>
    cases symbols with
    | nil =>
      cases h
      exact ⟨[], .nil, rfl, by simp⟩
    | cons symbol symbols =>
      rw [mapM_cons_apply] at h
      cases h
  | succ levels ih =>
    induction symbols generalizing s es with
    | nil =>
      cases h
      exact ⟨[], .nil, rfl, by simp⟩
    | cons symbol symbols ihs =>
      rw [mapM_cons_apply] at h
      split at h
      next => cases h
      next e s₁ hfirst =>
        split at h
        next => cases h
        next es s₂ hrest =>
          cases h
          obtain ⟨t, ht, rfl, hheight⟩ := expands_of_expand_succ hfirst ih
          obtain ⟨ts, hts, rfl, hheights⟩ := ihs hrest
          exact ⟨t :: ts, expands_cons_iff.2 ⟨s₁, ht, hts⟩, by simp,
            List.forall_mem_cons.2 ⟨hheight, hheights⟩⟩

/-- `expand` returns an expression exactly if it is the expression of an expansion, of no more
levels than it was given. -/
theorem expand_eq_ok_iff {levels : Nat} {symbol : String} {e : Expr α} :
    g.expand levels symbol depth s = .ok e s' ↔
      ∃ t, g.Expands [symbol] depth s [t] s' ∧ e = t.expr ∧ e.height ≤ levels := by
  constructor
  · intro h
    cases levels with
    | zero => cases h
    | succ levels => exact expands_of_expand_succ h expands_of_mapM_expand
  · rintro ⟨t, ht, rfl, hheight⟩
    have hone : ∀ t' ∈ [t], t'.expr.height ≤ levels := by simpa using hheight
    exact ok_of_mapM_singleton (ht.mapM_expand hone)

theorem synthesize_eq_ok_iff {symbol text : String} :
    g.synthesize symbol depth s = .ok text s' ↔
      ∃ t, g.Expands [symbol] depth s [t] s' ∧ text = t.expr.text literal ∧
        t.expr.height ≤ levelBound α depth s := by
  have hsynth : g.synthesize symbol depth s =
      match g.expand (levelBound α depth s) symbol depth s with
      | .error fault s => .error fault s
      | .ok e s => .ok (e.text literal) s := by
    unfold synthesize
    rw [bind_apply, derive]
    cases g.expand (levelBound α depth s) symbol depth s <;> rfl
  rw [hsynth]
  constructor
  · intro h
    split at h
    next => cases h
    next e s₁ he =>
      cases h
      obtain ⟨t, ht, rfl, hheight⟩ := expand_eq_ok_iff.1 he
      exact ⟨t, ht, rfl, hheight⟩
  · rintro ⟨t, ht, rfl, hheight⟩
    rw [expand_eq_ok_iff.2 ⟨t, ht, rfl, hheight⟩]

end Grammar

end Expansion

end SeededArt
