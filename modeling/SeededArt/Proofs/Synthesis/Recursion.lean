import SeededArt.Proofs.Random.Strays
import SeededArt.Proofs.Synthesis.Termination
/-!
# The recursion of synthesis

`spell` is synthesis as a recursion on draws and nothing else: it answers a text or a fault,
together with the draws that are left, or nothing if the recursion does not end. One level of it
(`level`) looks the symbol up and chooses an alternative; a leaf is its text, and a call decays the
depth and leaves its arguments to the recursion. `spellAll` spells the arguments in order, all at
the same depth, each with the draws that the one before left.

`textWithin` is the same with a bound on the levels of the recursion. What such a bound does not cut
off is what `spell` answers (`spell_eq_of_textWithin`), and what `spell` answers is the answer
within all bounds that are large enough (`exists_textWithin_of_spell`).

Each level with depth left lowers the depth, and each level without takes a stray. So a bound above
depth and strays together cuts nothing off (`not_isCut_textWithin`).

Depths are integers, as in `Grammar.synthesize`. Below zero a depth is lowered by strays only, by
one at each level. So without strays depths stay 64-bit words, and with strays they do as long as
there are fewer levels than words below the first depth.
-/

namespace SeededArt

open Arithmetic SeededArt.Random

/-- What an expansion ends with. -/
abbrev Ending (α σ β : Type) := EStateM.Result (SynthesisFault α) σ β

section Endings

variable {σ α β : Type}

/-- The recursion was cut off by the bound on its levels. -/
def IsCut : Ending α σ β → Prop
  | .error .tooManyLevels _ => True
  | _ => False

@[simp] theorem not_isCut_ok {b : β} {s : σ} : ¬IsCut (.ok b s : Ending α σ β) := id

@[simp] theorem isCut_error {fault : SynthesisFault α} {s : σ} :
    IsCut (.error fault s : Ending α σ β) ↔ fault = .tooManyLevels := by
  cases fault <;> simp [IsCut]

/-- The call that an alternative emits, from the texts of its arguments. -/
def Alternative.close (a : Alternative α) : Ending α σ (List String) → Ending α σ String
  | .ok texts s => .ok (a.emit ++ "(" ++ ", ".intercalate texts ++ ")") s
  | .error fault s => .error fault s

@[simp] theorem isCut_close {a : Alternative α} {r : Ending α σ (List String)} :
    IsCut (a.close r) ↔ IsCut r := by
  cases r <;> simp [Alternative.close]

/-- The ending of a list, from the text of the first symbol and the ending of the others. -/
def Ending.after (text : String) : Ending α σ (List String) → Ending α σ (List String)
  | .ok texts s => .ok (text :: texts) s
  | .error fault s => .error fault s

@[simp] theorem isCut_after {text : String} {r : Ending α σ (List String)} :
    IsCut (Ending.after text r) ↔ IsCut r := by
  cases r <;> simp [Ending.after]

theorem carry_close {τ : Type} {f : σ → τ} {a : Alternative α} {r : Ending α σ (List String)} :
    carry f (a.close r) = a.close (carry f r) := by
  cases r <;> rfl

end Endings

/-! ## The recursion -/

section Recursion

variable {σ α : Type} [Arithmetic α] [Source σ α]

/-- What is left of a depth that decays while it is not negative and a draw is below one half, and
the draws after that. -/
def decayed (α : Type) [Arithmetic α] [Source σ α] (depth : Int) (s : σ) : Int × σ :=
  if depth < 0 then (depth, s)
  else
    let (u, s) := (Source.next s : α × σ)
    if less u 0.5 then decayed α (depth - 1) s else (depth, s)
termination_by (depth + 1).toNat
decreasing_by omega

/-- What one level of the recursion comes to. -/
inductive Level (α σ : Type) where
  /-- It ends, with a text or a fault. -/
  | ended (ending : Ending α σ String)
  /-- It is a call, whose arguments come next: at this depth, with the draws that are left. -/
  | call (chosen : Alternative α) (depth : Int) (s : σ)

namespace Grammar

/-- One level of the recursion. -/
def level (g : Grammar α) (symbol : String) (depth : Int) (s : σ) : Level α σ :=
  match g.rule? symbol with
  | none => .ended (.error (.unknownRule symbol g.name) s)
  | some rule =>
    let (u, s) := (Source.next s : α × σ)
    match choose (·.weight) (if depth ≤ 0 then g.fallbackRule else rule).alternatives u with
    | .error cause => .ended (.error (.nothingChosen cause) s)
    | .ok chosen =>
      if chosen.isConstant then
        let (value, s) := (Source.next s : α × σ)
        .ended (.ok (literal value) s)
      else if chosen.isTerminal then .ended (.ok (chosen.emit ++ "()") s)
      else
        let (left, s) := decayed α depth s
        .call chosen (left - 1) s

section Spelling

variable (g : Grammar α)

mutual

/-- The text of a symbol, or why it has none, and the draws that are left. -/
def spell (symbol : String) (depth : Int) (s : σ) : Option (Ending α σ String) :=
  match g.level symbol depth s with
  | .ended ending => some ending
  | .call chosen depth s => do return chosen.close (← (spellAll (s := s)) chosen.arguments depth)
partial_fixpoint

/-- The texts of symbols at one depth, in order, or why one of them has none. -/
def spellAll (symbols : List String) (depth : Int) (s : σ) : Option (Ending α σ (List String)) :=
  match symbols with
  | [] => some (.ok [] s)
  | symbol :: symbols => do
    match ← (spell (s := s)) symbol depth with
    | .error fault s => return .error fault s
    | .ok text s =>
      match ← (spellAll (s := s)) symbols depth with
      | .error fault s => return .error fault s
      | .ok texts s => return .ok (text :: texts) s
partial_fixpoint

end

variable (symbol : String) (symbols : List String) (depth : Int) (s : σ)

theorem spell_eq_level :
    g.spell symbol depth s =
      match g.level symbol depth s with
      | .ended ending => some ending
      | .call chosen depth s => (g.spellAll chosen.arguments depth s).map chosen.close := by
  rw [spell]
  cases g.level symbol depth s with
  | ended ending => rfl
  | call chosen depth s => exact Option.map_eq_bind.symm

@[simp] theorem spellAll_nil : g.spellAll [] depth s = some (.ok [] s) := by
  rw [spellAll]

theorem spellAll_cons :
    g.spellAll (symbol :: symbols) depth s =
      (g.spell symbol depth s).bind fun
        | .error fault s => some (.error fault s)
        | .ok text s => (g.spellAll symbols depth s).map (Ending.after text) := by
  rw [spellAll]
  refine congrArg (Option.bind _) (funext fun first => ?_)
  cases first with
  | error fault s => rfl
  | ok text s =>
    refine (congrArg (Option.bind _) (funext fun rest => ?_)).trans Option.map_eq_bind.symm
    cases rest <;> rfl

end Spelling

/-- The text of a symbol, if its expansion has no more levels than the bound allows. -/
def textWithin (g : Grammar α) (levels : Nat) (symbol : String) (depth : Int) :
    Drawing (SynthesisFault α) σ String := do
  return (← g.expand levels symbol depth).text literal

theorem synthesize_eq_textWithin (g : Grammar α) (symbol : String) (depth : Int) (s : σ) :
    g.synthesize symbol depth s = g.textWithin (levelBound α depth s) symbol depth s := rfl

end Grammar

/-! ## Decay -/

section Decay

variable {depth : Int} {s : σ}

theorem decayed_of_neg (h : depth < 0) : decayed α depth s = (depth, s) := by
  rw [decayed, if_pos h]

theorem decayed_of_nonneg (h : 0 ≤ depth) :
    decayed α depth s =
      if less (Source.next s : α × σ).1 0.5 then
        decayed α (depth - 1) (Source.next s : α × σ).2
      else (depth, (Source.next s : α × σ).2) := by
  rw [decayed, if_neg (not_lt.2 h)]

theorem decay_eq_decayed {ε : Type} (depth : Int) (s : σ) :
    decay (α := α) (ε := ε) (depth + 1).toNat depth s =
      .ok (decayed α depth s).1 (decayed α depth s).2 := by
  induction hn : (depth + 1).toNat generalizing depth s with
  | zero =>
    rw [decayed_of_neg (by omega)]
    rfl
  | succ n ih =>
    rw [decay_succ, decayed_of_nonneg (by omega)]
    split
    next => exact ih (depth - 1) _ (by omega)
    next => rfl

theorem decayed_le (depth : Int) (s : σ) : (decayed α depth s).1 ≤ depth := by
  induction hn : (depth + 1).toNat generalizing depth s with
  | zero => rw [decayed_of_neg (by omega)]
  | succ n ih =>
    rw [decayed_of_nonneg (by omega)]
    split
    next =>
      have := ih (depth - 1) (Source.next s : α × σ).2 (by omega)
      omega
    next => exact le_refl depth

theorem Random.StraysAtMost.decayed {P : α → Prop} {k : ℕ} (h : StraysAtMost P s k)
    (depth : Int) : StraysAtMost P (decayed α depth s).2 k := by
  induction hn : (depth + 1).toNat generalizing depth s with
  | zero =>
    rw [decayed_of_neg (by omega)]
    exact h
  | succ n ih =>
    rw [decayed_of_nonneg (by omega)]
    split
    next => exact ih h.tail _ (by omega)
    next => exact h.tail

theorem Random.KeepsDraws.decayed {τ : Type} [Source τ α] {f : σ → τ} (hf : KeepsDraws α f)
    (depth : Int) (s : σ) :
    decayed α depth (f s) = ((decayed α depth s).1, f (decayed α depth s).2) := by
  induction hn : (depth + 1).toNat generalizing depth s with
  | zero => rw [decayed_of_neg (by omega), decayed_of_neg (by omega)]
  | succ n ih =>
    have hpos : 0 ≤ depth := by omega
    rw [decayed_of_nonneg (s := f s) hpos, decayed_of_nonneg (s := s) hpos, hf s]
    simp only
    split
    next => exact ih _ _ (by omega)
    next => rfl

end Decay

/-! ## Levels -/

namespace Grammar

variable {g : Grammar α} {symbol : String} {symbols : List String} {depth : Int} {s s' : σ}
  {a : Alternative α} {d : Int}

theorem of_level_eq_call (h : g.level symbol depth s = .call a d s') :
    ∃ rule, g.rule? symbol = some rule ∧
      choose (·.weight) (g.ruleAtDepth rule depth).alternatives (Source.next s : α × σ).1 = .ok a ∧
      a.isTerminal = false ∧
      d = (decayed α depth (Source.next s : α × σ).2).1 - 1 ∧
      s' = (decayed α depth (Source.next s : α × σ).2).2 := by
  unfold level at h
  split at h
  next => cases h
  next rule hrule =>
    refine ⟨rule, hrule, ?_⟩
    simp only at h
    split at h
    next => cases h
    next chosen hchoose =>
      split at h
      next => cases h
      next =>
        split at h
        next => cases h
        next hterm =>
          cases h
          exact ⟨hchoose, by simpa using hterm, rfl, rfl⟩

theorem not_isCut_of_level {r : Ending α σ String} (h : g.level symbol depth s = .ended r) :
    ¬IsCut r := by
  unfold level at h
  split at h
  next =>
    cases h
    exact id
  next =>
    simp only at h
    split at h
    next =>
      cases h
      exact id
    next =>
      split at h
      next =>
        cases h
        exact not_isCut_ok
      next =>
        split at h
        next =>
          cases h
          exact not_isCut_ok
        next => cases h

theorem straysAtMost_of_level {P : α → Prop} {k : ℕ} {text : String} (hs : StraysAtMost P s k)
    (h : g.level symbol depth s = .ended (.ok text s')) : StraysAtMost P s' k := by
  unfold level at h
  split at h
  next => cases h
  next =>
    simp only at h
    split at h
    next => cases h
    next =>
      split at h
      next =>
        cases h
        exact hs.tail.tail
      next =>
        split at h
        next =>
          cases h
          exact hs.tail
        next => cases h

theorem mapM_textWithin (levels : Nat) (symbols : List String) (depth : Int) (s : σ) :
    (symbols.mapM fun x => g.textWithin levels x depth) s =
      match (symbols.mapM fun x => g.expand levels x depth) s with
      | .ok es s => .ok (es.map fun e => e.text literal) s
      | .error fault s => .error fault s := by
  induction symbols generalizing s with
  | nil => rfl
  | cons symbol symbols ih =>
    rw [mapM_cons_apply, mapM_cons_apply, textWithin, bind_apply]
    cases g.expand levels symbol depth s with
    | error fault s => rfl
    | ok e s =>
      simp only [pure_apply, ih]
      cases (symbols.mapM fun x => g.expand levels x depth) s <;> rfl

theorem textWithin_succ (g : Grammar α) (levels : Nat) (symbol : String) (depth : Int) (s : σ) :
    g.textWithin (levels + 1) symbol depth s =
      match g.level symbol depth s with
      | .ended ending => ending
      | .call a depth s => a.close ((a.arguments.mapM fun x => g.textWithin levels x depth) s) := by
  rw [textWithin, bind_apply, expand_succ]
  unfold level
  cases g.rule? symbol with
  | none => rfl
  | some rule =>
    simp only [pick_eq, ruleAtDepth]
    cases choose (·.weight) (if depth ≤ 0 then g.fallbackRule else rule).alternatives
      (Source.next s : α × σ).1 with
    | error cause => rfl
    | ok a =>
      simp only
      cases hconst : a.isConstant with
      | true =>
        simp only [Alternative.isTerminal_of_isConstant hconst, if_true]
        rw [pure_apply, Expr.text_number]
      | false =>
        cases a.isTerminal with
        | true =>
          simp only [if_true, Bool.false_eq_true, if_false]
          rw [pure_apply, Expr.text_call, List.map_nil, String.append_assoc, String.append_assoc]
          rfl
        | false =>
          simp only [Bool.false_eq_true, if_false, decay_eq_decayed, mapM_textWithin]
          generalize (List.mapM (m := Drawing (SynthesisFault α) σ) _ a.arguments) _ = r
          cases r with
          | error fault s => rfl
          | ok es s =>
            simp only [pure_apply, Expr.text_call]
            rfl

@[simp] theorem textWithin_zero (g : Grammar α) (symbol : String) (depth : Int) (s : σ) :
    g.textWithin 0 symbol depth s = .error .tooManyLevels s := rfl

/-! ## Bounded and unbounded recursion -/

theorem spellAll_eq_of_mapM {levels : Nat}
    (h : ∀ {symbol : String} {s : σ}, ¬IsCut (g.textWithin levels symbol depth s) →
      g.spell symbol depth s = some (g.textWithin levels symbol depth s))
    (hcut : ¬IsCut ((symbols.mapM fun x => g.textWithin levels x depth) s)) :
    g.spellAll symbols depth s =
      some ((symbols.mapM fun x => g.textWithin levels x depth) s) := by
  induction symbols generalizing s with
  | nil => exact g.spellAll_nil depth s
  | cons symbol symbols ih =>
    rw [mapM_cons_apply] at hcut ⊢
    rw [spellAll_cons]
    cases hfirst : g.textWithin levels symbol depth s with
    | error fault s₁ =>
      rw [hfirst, isCut_error] at hcut
      rw [h (by rwa [hfirst, isCut_error]), hfirst]
      rfl
    | ok text s₁ =>
      rw [hfirst] at hcut
      rw [h (by rw [hfirst]; exact not_isCut_ok), hfirst, Option.bind_some]
      simp only at hcut ⊢
      cases hrest : (symbols.mapM fun x => g.textWithin levels x depth) s₁ with
      | error fault s₂ =>
        rw [hrest, isCut_error] at hcut
        rw [ih (by rwa [hrest, isCut_error]), hrest]
        rfl
      | ok texts s₂ =>
        rw [ih (by rw [hrest]; exact not_isCut_ok), hrest]
        rfl

/-- What a bound on the levels does not cut off does not depend on the bound. -/
theorem spell_eq_of_textWithin {levels : Nat} (hcut : ¬IsCut (g.textWithin levels symbol depth s)) :
    g.spell symbol depth s = some (g.textWithin levels symbol depth s) := by
  induction levels generalizing symbol depth s with
  | zero => exact absurd (isCut_error.2 rfl) hcut
  | succ levels ih =>
    rw [textWithin_succ] at hcut ⊢
    rw [spell_eq_level]
    cases hlevel : g.level symbol depth s with
    | ended ending => rfl
    | call a depth s =>
      rw [hlevel] at hcut
      simp only [isCut_close] at hcut
      simp only [spellAll_eq_of_mapM ih hcut, Option.map_some]

/-- Within every bound that is large enough a run ends in one way, and is not cut off. -/
def Settles {β : Type} (run : ℕ → Ending α σ β) (ending : Ending α σ β) : Prop :=
  ¬IsCut ending ∧ ∃ bound, ∀ levels, bound ≤ levels → run levels = ending

theorem settles_of_ended {ending : Ending α σ String}
    (hlevel : g.level symbol depth s = .ended ending) :
    Settles (fun levels => g.textWithin levels symbol depth s) ending := by
  refine ⟨not_isCut_of_level hlevel, 1, fun levels hlevels => ?_⟩
  obtain ⟨n, rfl⟩ := Nat.exists_eq_add_of_le' hlevels
  show g.textWithin (n + 1) symbol depth s = ending
  rw [textWithin_succ, hlevel]

theorem settles_of_call {ending : Ending α σ (List String)}
    (hlevel : g.level symbol depth s = .call a d s')
    (h : Settles (fun levels => (a.arguments.mapM fun x => g.textWithin levels x d) s') ending) :
    Settles (fun levels => g.textWithin levels symbol depth s) (a.close ending) := by
  obtain ⟨hcut, bound, hbound⟩ := h
  refine ⟨isCut_close.not.2 hcut, bound + 1, fun levels hlevels => ?_⟩
  obtain ⟨n, rfl⟩ := Nat.exists_eq_add_of_le' (Nat.le_of_add_left_le hlevels)
  show g.textWithin (n + 1) symbol depth s = a.close ending
  rw [textWithin_succ, hlevel, ← hbound n (by omega)]

theorem settles_cons_of_error {fault : SynthesisFault α}
    (h : Settles (fun levels => g.textWithin levels symbol depth s) (.error fault s')) :
    Settles (fun levels => ((symbol :: symbols).mapM fun x => g.textWithin levels x depth) s)
      (.error fault s') := by
  obtain ⟨hcut, bound, hbound⟩ := h
  rw [isCut_error] at hcut
  refine ⟨isCut_error.not.2 hcut, bound, fun levels hlevels => ?_⟩
  show ((symbol :: symbols).mapM fun x => g.textWithin levels x depth) s = .error fault s'
  have hfirst : g.textWithin levels symbol depth s = .error fault s' := hbound levels hlevels
  rw [mapM_cons_apply, hfirst]

/-- A list settles when its first symbol and the others have settled. -/
theorem settles_cons_of_ok {text : String} {rest : Ending α σ (List String)}
    (h : Settles (fun levels => g.textWithin levels symbol depth s) (.ok text s'))
    (hrest : Settles (fun levels => (symbols.mapM fun x => g.textWithin levels x depth) s') rest) :
    Settles (fun levels => ((symbol :: symbols).mapM fun x => g.textWithin levels x depth) s)
      (Ending.after text rest) := by
  obtain ⟨-, bound, hbound⟩ := h
  obtain ⟨hcut, bound', hbound'⟩ := hrest
  refine ⟨isCut_after.not.2 hcut, max bound bound', fun levels hlevels => ?_⟩
  have hfirst : g.textWithin levels symbol depth s = .ok text s' :=
    hbound levels (le_of_max_le_left hlevels)
  have hothers : (symbols.mapM fun x => g.textWithin levels x depth) s' = rest :=
    hbound' levels (le_of_max_le_right hlevels)
  show ((symbol :: symbols).mapM fun x => g.textWithin levels x depth) s = Ending.after text rest
  rw [mapM_cons_apply, hfirst]
  simp only [hothers]
  cases rest <;> rfl

/-- What is spelled is the answer within every bound that is large enough. -/
theorem exists_textWithin_of_spell {r : Ending α σ String} (h : g.spell symbol depth s = some r) :
    ¬IsCut r ∧ ∃ bound, ∀ levels, bound ≤ levels → g.textWithin levels symbol depth s = r := by
  refine spell.partial_correctness g
    (fun symbol depth s r => Settles (fun levels => g.textWithin levels symbol depth s) r)
    (fun symbols depth s r =>
      Settles (fun levels => (symbols.mapM fun x => g.textWithin levels x depth) s) r)
    ?_ ?_ symbol depth s r h
  · intro below hbelow symbol depth s r h
    split at h
    next ending hlevel =>
      cases h
      exact settles_of_ended hlevel
    next a d s₁ hlevel =>
      obtain ⟨ending, hending, hr⟩ := Option.bind_eq_some_iff.1 h
      cases hr
      exact settles_of_call hlevel (hbelow _ _ _ _ hending)
  · intro spell spellAll hspell hspellAll symbols depth s r h
    cases symbols with
    | nil =>
      cases h
      exact ⟨not_isCut_ok, 0, fun _ _ => rfl⟩
    | cons symbol symbols =>
      obtain ⟨first, hfirst, h⟩ := Option.bind_eq_some_iff.1 h
      cases first with
      | error fault s₁ =>
        cases h
        exact settles_cons_of_error (hspell _ _ _ _ hfirst)
      | ok text s₁ =>
        obtain ⟨rest, hrest, h⟩ := Option.bind_eq_some_iff.1 h
        have hsettles := settles_cons_of_ok (hspell _ _ _ _ hfirst) (hspellAll _ _ _ _ hrest)
        cases rest <;> cases h <;> exact hsettles

/-! ## Bounds that cut nothing off -/

section Strays

variable {P : α → Prop} {levels k : ℕ}

theorem mapM_of_straysAtMost
    (h : ∀ (symbol : String) (s : σ), StraysAtMost P s k →
      ¬IsCut (g.textWithin levels symbol depth s) ∧ ∀ {text : String} {s' : σ},
        g.textWithin levels symbol depth s = .ok text s' → StraysAtMost P s' k)
    (hs : StraysAtMost P s k) :
    ¬IsCut ((symbols.mapM fun x => g.textWithin levels x depth) s) ∧
      ∀ {texts : List String} {s' : σ},
        (symbols.mapM fun x => g.textWithin levels x depth) s = .ok texts s' →
          StraysAtMost P s' k := by
  induction symbols generalizing s with
  | nil =>
    refine ⟨not_isCut_ok, fun hr => ?_⟩
    cases hr
    exact hs
  | cons symbol symbols ih =>
    obtain ⟨hcut, hrest⟩ := h symbol s hs
    rw [mapM_cons_apply]
    cases hfirst : g.textWithin levels symbol depth s with
    | error fault s₁ =>
      rw [hfirst, isCut_error] at hcut
      exact ⟨isCut_error.not.2 hcut, fun hr => nomatch hr⟩
    | ok text s₁ =>
      obtain ⟨hcut', hrest'⟩ := ih (hrest hfirst)
      simp only
      cases hlist : (symbols.mapM fun x => g.textWithin levels x depth) s₁ with
      | error fault s₂ =>
        rw [hlist, isCut_error] at hcut'
        exact ⟨isCut_error.not.2 hcut', fun hr => nomatch hr⟩
      | ok texts s₂ =>
        refine ⟨not_isCut_ok, fun hr => ?_⟩
        cases hr
        exact hrest' hlist

/-- A call lowers the depth, or takes a stray. -/
theorem exists_straysAtMost_of_call (hP : g.ChoosesPositive P) (hs : StraysAtMost P s k)
    (h : g.level symbol depth s = .call a d s') :
    ∃ j ≤ k, StraysAtMost P s' j ∧ d.toNat + j < depth.toNat + k := by
  obtain ⟨rule, hrule, hchoose, hterm, rfl, rfl⟩ := of_level_eq_call h
  have hle := decayed_le (α := α) depth (Source.next s : α × σ).2
  by_cases hu : P (Source.next s : α × σ).1
  · have hpos : 0 < depth := by
      by_contra hneg
      have hmem : g.ruleAtDepth rule depth ∈ g.rules := ruleAtDepth_mem (mem_of_rule? hrule)
      have hweight := hP _ hmem _ hu a hchoose
      have ha := mem_of_choose hchoose
      unfold ruleAtDepth at ha
      rw [if_pos (not_lt.1 hneg)] at ha
      rw [isTerminal_of_fallback ha hweight] at hterm
      cases hterm
    exact ⟨k, le_rfl, hs.tail.decayed depth, by omega⟩
  · obtain ⟨j, rfl, hj⟩ := hs.tail_of_not hu
    exact ⟨j, by omega, hj.decayed depth, by omega⟩

theorem textWithin_of_straysAtMost (hP : g.ChoosesPositive P) (hs : StraysAtMost P s k)
    (hlevels : depth.toNat + k < levels) :
    ¬IsCut (g.textWithin levels symbol depth s) ∧ ∀ {text : String} {s' : σ},
      g.textWithin levels symbol depth s = .ok text s' → StraysAtMost P s' k := by
  induction levels generalizing symbol depth s k with
  | zero => omega
  | succ levels ih =>
    rw [textWithin_succ]
    cases hlevel : g.level symbol depth s with
    | ended r =>
      refine ⟨not_isCut_of_level hlevel, fun hr => ?_⟩
      obtain rfl := hr
      exact straysAtMost_of_level hs hlevel
    | call a d s₁ =>
      obtain ⟨j, hjk, hj, hlt⟩ := exists_straysAtMost_of_call hP hs hlevel
      have hbelow : d.toNat + j < levels := by omega
      obtain ⟨hcut, hrest⟩ := mapM_of_straysAtMost (fun _ _ hs => ih hs hbelow) hj
      refine ⟨isCut_close.not.2 hcut, fun hr => ?_⟩
      cases hlist : (a.arguments.mapM fun x => g.textWithin levels x d) s₁ with
      | error fault s₂ =>
        simp only [hlist] at hr
        cases hr
      | ok texts s₂ =>
        simp only [hlist] at hr
        cases hr
        exact (hrest hlist).mono hjk

/-- A bound above depth and strays together cuts nothing off. -/
theorem not_isCut_textWithin (hP : g.ChoosesPositive P) (hs : StraysAtMost P s k)
    (hlevels : depth.toNat + k < levels) : ¬IsCut (g.textWithin levels symbol depth s) :=
  (textWithin_of_straysAtMost hP hs hlevels).1

end Strays

end Grammar

/-! ## Other sources of the same draws -/

section KeepsDraws

variable {τ : Type} [Source τ α] {f : σ → τ} {g : Grammar α}

/-- A level with its draws carried along a function. -/
def Level.carry (f : σ → τ) : Level α σ → Level α τ
  | .ended ending => .ended (Random.carry f ending)
  | .call a depth s => .call a depth (f s)

theorem Random.KeepsDraws.level (hf : KeepsDraws α f) (symbol : String) (depth : Int) (s : σ) :
    g.level symbol depth (f s) = (g.level symbol depth s).carry f := by
  unfold Grammar.level
  cases g.rule? symbol with
  | none => rfl
  | some rule =>
    simp only [hf s]
    cases choose (·.weight) (if depth ≤ 0 then g.fallbackRule else rule).alternatives
      (Source.next s : α × σ).1 with
    | error cause => rfl
    | ok a =>
      simp only [hf _, hf.decayed]
      split
      next => rfl
      next =>
        split
        next => rfl
        next => rfl

theorem Random.KeepsDraws.textWithin (hf : KeepsDraws α f) (levels : Nat) (symbol : String)
    (depth : Int) (s : σ) :
    g.textWithin levels symbol depth (f s) =
      Random.carry f (g.textWithin levels symbol depth s) := by
  induction levels generalizing symbol depth s with
  | zero => rfl
  | succ levels ih =>
    rw [Grammar.textWithin_succ, Grammar.textWithin_succ, hf.level]
    cases g.level symbol depth s with
    | ended ending => rfl
    | call a depth s =>
      simp only [Level.carry]
      rw [carry_close, mapM_carry fun x s => ih x depth s]

end KeepsDraws

end Recursion

end SeededArt
