import SeededArt.Proofs.Grammar.Builtin
import SeededArt.Proofs.Synthesis.Termination
/-!
# Depths in machine words

`expandChecked` expands with depths that are 64-bit words, and each time a depth is lowered it asks
whether the word below exists. The decay lowers no negative depth, and what is left of a depth is
at least `-1` before one more is taken off: so `expandChecked` returns what `expand` returns,
whatever word the first depth is (`Expands.mapM_expandChecked`).
-/

namespace SeededArt

open Arithmetic SeededArt.Random

/-- Why an expansion with depths in machine words has no expression. -/
inductive CheckedFault (α : Type) where
  /-- There is no word below this depth. -/
  | outOfRange (depth : Int64)
  | expansion (cause : SynthesisFault α)

/-- The word below a depth. -/
def lower {σ α : Type} (depth : Int64) : Drawing (CheckedFault α) σ Int64 :=
  if depth = Int64.minValue then throw (.outOfRange depth) else pure (depth - 1)

section Words

variable {σ α : Type} {depth : Int64}

theorem toInt_sub_one (h : Int64.minValue.toInt < depth.toInt) :
    (depth - 1).toInt = depth.toInt - 1 := by
  have hlt := depth.toInt_lt
  rw [Int64.toInt_minValue] at h
  rw [Int64.toInt_sub, Int64.toInt_one]
  exact Int.bmod_eq_of_le (by omega) (by omega)

theorem lower_apply (h : Int64.minValue.toInt < depth.toInt) (s : σ) :
    (lower depth : Drawing (CheckedFault α) σ Int64) s = .ok (depth - 1) s := by
  have hne : depth ≠ Int64.minValue := by
    rintro rfl
    omega
  unfold lower
  rw [if_neg hne]
  rfl

end Words

variable {σ α : Type} [Arithmetic α] [Source σ α]

/-- `decay`, with every word below asked for. -/
def decayChecked : Nat → Int64 → Drawing (CheckedFault α) σ Int64
  | 0, depth => pure depth
  | steps + 1, depth => do
    let u : α ← draw
    if less u 0.5 then decayChecked steps (← lower depth) else pure depth

/-- `expand`, with every word below asked for. -/
def Grammar.expandChecked (g : Grammar α) :
    (levels : Nat) → (symbol : String) → (depth : Int64) →
      Drawing (CheckedFault α) σ (Expr α)
  | 0, _, _ => throw (.expansion .tooManyLevels)
  | levels + 1, symbol, depth => do
    let rule ← match g.require symbol with
      | .ok rule => pure rule
      | .error fault => throw (.expansion fault)
    let chosen ← EStateM.adaptExcept CheckedFault.expansion <|
      pickAlternative (g.ruleAtDepth rule depth.toInt)
    if chosen.isTerminal then
      if chosen.isConstant then return .number (← draw)
      else return .call chosen.emit []
    else
      let left ← decayChecked (α := α) (depth.toInt + 1).toNat depth
      let below ← lower left
      let arguments ← chosen.arguments.mapM fun argument => g.expandChecked levels argument below
      return .call chosen.emit arguments

/-! ## The checked run -/

section Checked

variable {depth : Int64} {s s' : σ}

theorem decayChecked_succ (steps : Nat) (h : Int64.minValue.toInt < depth.toInt) (s : σ) :
    decayChecked (α := α) (steps + 1) depth s =
      if less (Source.next s : α × σ).1 0.5 then
        decayChecked (α := α) steps (depth - 1) (Source.next s : α × σ).2
      else .ok depth (Source.next s : α × σ).2 := by
  rw [decayChecked, bind_apply, draw_apply]
  simp only
  split
  next => rw [bind_apply, lower_apply h]
  next => rfl

/-- The checked decay ends where the decay does. -/
theorem decayChecked_of_decays {d l : Int} (h : Decays α d s l s') (hd : depth.toInt = d) :
    ∃ left : Int64, left.toInt = l ∧
      decayChecked (α := α) (depth.toInt + 1).toNat depth s = .ok left s' := by
  induction h generalizing depth with
  | @negative d s hneg =>
    refine ⟨depth, hd, ?_⟩
    rw [hd, show (d + 1).toNat = 0 by omega]
    rfl
  | @stop d s hpos hless =>
    have hrange : Int64.minValue.toInt < depth.toInt := by
      rw [Int64.toInt_minValue]
      omega
    refine ⟨depth, hd, ?_⟩
    rw [hd, show (d + 1).toNat = d.toNat + 1 by omega, decayChecked_succ _ hrange, hless,
      if_neg (by simp)]
  | @step d l s s' hpos hless _ ih =>
    have hrange : Int64.minValue.toInt < depth.toInt := by
      rw [Int64.toInt_minValue]
      omega
    have hbelow := toInt_sub_one hrange
    obtain ⟨left, hleft, hdecay⟩ := ih (hbelow.trans (by rw [hd]))
    refine ⟨left, hleft, ?_⟩
    rw [show (depth.toInt + 1).toNat = ((depth - 1).toInt + 1).toNat + 1 by omega,
      decayChecked_succ _ hrange, hless, if_pos rfl]
    exact hdecay

namespace Grammar

variable {g : Grammar α} {levels : Nat} {symbol : String} {s₁ s₂ s₃ : σ} {rule : Rule α}
  {a : Alternative α} {left : Int}

theorem expandChecked_succ (g : Grammar α) (levels : Nat) (symbol : String) (depth : Int64)
    (s : σ) (hrule : g.rule? symbol = some rule)
    (hpick : pick (·.weight) (g.ruleAtDepth rule depth.toInt).alternatives s = .ok a s₁) :
    g.expandChecked (levels + 1) symbol depth s =
      (if a.isTerminal then
        if a.isConstant then do return .number (← draw) else return .call a.emit []
      else do
        let left ← decayChecked (α := α) (depth.toInt + 1).toNat depth
        let below ← lower left
        let arguments ← a.arguments.mapM fun argument => g.expandChecked levels argument below
        return .call a.emit arguments : Drawing (CheckedFault α) σ (Expr α)) s₁ := by
  rw [expandChecked, require, hrule]
  simp only [bind_apply, pure_apply, EStateM.adaptExcept, pickAlternative, hpick]

theorem expandChecked_constant (hrule : g.rule? symbol = some rule)
    (hpick : pick (·.weight) (g.ruleAtDepth rule depth.toInt).alternatives s = .ok a s₁)
    (hconst : a.isConstant = true) :
    g.expandChecked (levels + 1) symbol depth s =
      .ok (.number (Source.next s₁ : α × σ).1) (Source.next s₁ : α × σ).2 := by
  rw [expandChecked_succ g levels symbol depth s hrule hpick,
    if_pos (Alternative.isTerminal_of_isConstant hconst), if_pos hconst]
  rfl

theorem expandChecked_leaf (hrule : g.rule? symbol = some rule)
    (hpick : pick (·.weight) (g.ruleAtDepth rule depth.toInt).alternatives s = .ok a s₁)
    (hterm : a.isTerminal = true) (hconst : a.isConstant = false) :
    g.expandChecked (levels + 1) symbol depth s = .ok (.call a.emit []) s₁ := by
  rw [expandChecked_succ g levels symbol depth s hrule hpick, if_pos hterm,
    if_neg (by simp [hconst])]
  rfl

theorem expandChecked_composite {es : List (Expr α)} {left below : Int64}
    (hrule : g.rule? symbol = some rule)
    (hpick : pick (·.weight) (g.ruleAtDepth rule depth.toInt).alternatives s = .ok a s₁)
    (hterm : a.isTerminal = false)
    (hdecay : decayChecked (α := α) (depth.toInt + 1).toNat depth s₁ = .ok left s₂)
    (hlower : (lower left : Drawing (CheckedFault α) σ Int64) s₂ = .ok below s₂)
    (hargs : (a.arguments.mapM fun argument => g.expandChecked levels argument below) s₂ =
      .ok es s₃) :
    g.expandChecked (levels + 1) symbol depth s = .ok (.call a.emit es) s₃ := by
  rw [expandChecked_succ g levels symbol depth s hrule hpick, if_neg (by simp [hterm])]
  simp only [bind_apply, hdecay, hlower, hargs, pure_apply]

/-- Where every draw has a choice from every rule, the checked run of an expansion returns its
expressions. -/
theorem Expands.mapM_expandChecked {P : α → Prop} (hP : g.PicksPositive P)
    {symbols : List String} {d : Int} {ts : List (Derivation α)}
    (h : g.Expands symbols d s ts s') (hs : AllDraws P s) (hd : depth.toInt = d)
    (hlevels : ∀ t ∈ ts, t.expr.height ≤ levels) :
    (symbols.mapM fun x => g.expandChecked levels x depth) s = .ok (ts.map (·.expr)) s' := by
  induction h generalizing levels depth with
  | nil => rfl
  | constant hrule hpick hconst _ ih =>
    subst hd
    rw [List.forall_mem_cons] at hlevels
    obtain ⟨n, rfl⟩ := Nat.exists_eq_add_of_lt (lt_of_lt_of_le (Expr.height_pos _) hlevels.1)
    rw [List.map_cons, Derivation.expr_constant]
    exact mapM_cons_of_ok (expandChecked_constant hrule hpick hconst)
      (ih (allDraws_of_pick hpick hs).tail rfl hlevels.2)
  | leaf hrule hpick hterm hconst _ ih =>
    subst hd
    rw [List.forall_mem_cons] at hlevels
    obtain ⟨n, rfl⟩ := Nat.exists_eq_add_of_lt (lt_of_lt_of_le (Expr.height_pos _) hlevels.1)
    rw [List.map_cons, Derivation.expr_node]
    exact mapM_cons_of_ok (expandChecked_leaf hrule hpick hterm hconst)
      (ih (allDraws_of_pick hpick hs) rfl hlevels.2)
  | composite hrule hpick hterm hdecay hargs _ ihargs ih =>
    subst hd
    rw [List.forall_mem_cons] at hlevels
    obtain ⟨n, rfl⟩ := Nat.exists_eq_add_of_lt (lt_of_lt_of_le (Expr.height_pos _) hlevels.1)
    obtain ⟨hfirst, hrest⟩ := hlevels
    rw [Derivation.expr_node, Expr.height_call_le_iff] at hfirst
    -- a composite alternative is chosen with depth left, so what is left is at least `-1`
    have hpos := pos_of_composite hP hs hrule hpick hterm
    have hbounds := hdecay.bounds hpos.le
    have hs₂ := hdecay.allDraws (allDraws_of_pick hpick hs)
    obtain ⟨left, hleft, hchecked⟩ := decayChecked_of_decays hdecay rfl
    have hrange : Int64.minValue.toInt < left.toInt := by
      rw [Int64.toInt_minValue]
      omega
    have hbelow : (left - 1).toInt = _ - 1 := (toInt_sub_one hrange).trans (by rw [hleft])
    rw [List.map_cons, Derivation.expr_node]
    refine mapM_cons_of_ok ?_ (ih (hargs.allDraws hs₂) rfl hrest)
    refine expandChecked_composite hrule hpick hterm hchecked (lower_apply hrange _)
      (ihargs hs₂ hbelow ?_)
    simpa using hfirst

end Grammar

end Checked

/-- Every draw of a generator is a word over `2 ^ 32`. -/
theorem allDraws_mulberry [RoundedArithmetic α] (m : Mulberry) :
    AllDraws (IsWordFraction (α := α)) m :=
  allDraws_of_invariant (fun _ => True) trivial (fun m _ => isWordFraction_fraction m.next.1)
    fun _ _ => trivial

theorem allDraws_inUnit_mulberry [RoundedArithmetic α] (m : Mulberry) :
    AllDraws (InUnit (α := α)) m :=
  fun n => (allDraws_mulberry m n).inUnit

/-- From a source whose draws are words over `2 ^ 32`, as those of every generator are, every
symbol that names a rule expands at every depth to an expression of at most one level more than
there is depth. Further levels do not change that, and no depth on the way there leaves the range
of machine words. -/
theorem Grammar.synthesize_terminates [RoundedArithmetic α] (g : Grammar α) {symbol : String}
    (hsymbol : g.has symbol = true) (depth : Int64) :
    (∀ m : Mulberry, AllDraws (IsWordFraction (α := α)) m) ∧
      ∀ {σ : Type} [Source σ α] (s : σ), AllDraws (IsWordFraction (α := α)) s →
        ∃ e s', g.synthesize symbol depth.toInt s = .ok (e.text literal) s' ∧
          e.height ≤ depth.toInt.toNat + 1 ∧
          ∀ levels, depth.toInt.toNat < levels →
            g.expand levels symbol depth.toInt s = .ok e s' ∧
            g.expandChecked levels symbol depth s = .ok e s' := by
  refine ⟨allDraws_mulberry, fun {σ} _ s hs => ?_⟩
  have hP := g.picksPositive_of_isWordFraction
  obtain ⟨t, s', ht⟩ := exists_expands_singleton hP hs hsymbol depth.toInt
  have hheight := ht.height_le hP hs t (List.mem_singleton_self t)
  refine ⟨t.expr, s', ht.synthesize hP hs, hheight, ?_⟩
  intro levels hlevels
  have hone : ∀ u ∈ [t], u.expr.height ≤ levels := by
    simp only [List.mem_singleton, forall_eq]
    omega
  exact ⟨expand_eq_ok_iff.2 ⟨t, ht, rfl, by omega⟩,
    ok_of_mapM_singleton (ht.mapM_expandChecked hP hs rfl hone)⟩

theorem Grammar.exists_synthesize_perrig :
    ∃ g : Grammar Float, Builtin.assemble "perrig" Builtin.perrigRules = .ok g ∧
      g.has "E" = true ∧ ∃ (e : Expr Float) (s' : Mulberry),
        g.synthesize "E" 4 (Mulberry.ofSeed "art") = .ok (e.text literal) s' ∧ e.height ≤ 5 := by
  obtain ⟨g, hg, hsymbol, -⟩ :=
    Builtin.exists_assemble_float (p := ("perrig", Builtin.perrigRules)) List.mem_cons_self
  obtain ⟨hdraws, hsynth⟩ := synthesize_terminates g hsymbol 4
  obtain ⟨e, s', htext, hheight, -⟩ := hsynth (Mulberry.ofSeed "art") (hdraws _)
  exact ⟨g, hg, hsymbol, e, s', htext, hheight⟩

end SeededArt
