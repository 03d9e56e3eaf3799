import SeededArt.Proofs.Grammar.Soundness
import SeededArt.Proofs.Synthesis.Expansion
/-!
# Expansions end

With depth left each level of an expansion lowers the depth, and without depth only leaves of the
fallback rule can be chosen (`ChoosesPositive.pos_of_composite`), so an expansion has at most
`max depth 0 + 1` levels (`ChoosesPositive.height_le`). If every draw has a choice from every rule,
then every symbol that names a rule expands (`exists_expands`).
-/

namespace SeededArt

open Arithmetic SeededArt.Random

variable {σ α : Type} [Arithmetic α] [Source σ α] {P : α → Prop} {g : Grammar α}
  {symbol : String} {symbols : List String} {depth : Int} {s s₁ s' : σ} {rule : Rule α}
  {a : Alternative α}

namespace Grammar

theorem ruleAtDepth_mem (h : rule ∈ g.rules) : g.ruleAtDepth rule depth ∈ g.rules := by
  unfold ruleAtDepth
  split
  next => exact g.fallbackRule_mem
  next => exact h

namespace ChoosesPositive

/-- A composite alternative is chosen with depth left only. -/
theorem pos_of_composite (hP : g.ChoosesPositive P) (hs : AllDraws P s)
    (hrule : g.rule? symbol = some rule)
    (hpick : pick (·.weight) (g.ruleAtDepth rule depth).alternatives s = .ok a s₁)
    (hterm : a.isTerminal = false) : 0 < depth := by
  by_contra hneg
  have hpos := hP.of_pick (ruleAtDepth_mem (mem_of_rule? hrule)) hs hpick
  have ha := mem_of_pick hpick
  unfold ruleAtDepth at ha
  rw [if_pos (not_lt.1 hneg)] at ha
  rw [isTerminal_of_fallback ha hpos] at hterm
  exact absurd hterm.symm Bool.false_ne_true

/-- An expansion has at most one level more than there is depth. -/
theorem height_le {ts : List (Derivation α)} (hP : g.ChoosesPositive P)
    (h : g.Expands symbols depth s ts s') (hs : AllDraws P s) :
    ∀ t ∈ ts, t.expr.height ≤ depth.toNat + 1 := by
  induction h with
  | nil => simp
  | constant hrule hpick hconst _ ih =>
    exact List.forall_mem_cons.2 ⟨by simp [Expr.height], ih (allDraws_of_pick hpick hs).tail⟩
  | leaf hrule hpick hterm hconst _ ih =>
    exact List.forall_mem_cons.2 ⟨by simp [Expr.height], ih (allDraws_of_pick hpick hs)⟩
  | composite hrule hpick hterm hdecay hargs _ ihargs ih =>
    have hs₂ := hdecay.allDraws (allDraws_of_pick hpick hs)
    refine List.forall_mem_cons.2 ⟨?_, ih (hargs.allDraws hs₂)⟩
    have hpos := hP.pos_of_composite hs hrule hpick hterm
    have hbounds := hdecay.bounds hpos.le
    rw [Derivation.expr_node, Expr.height_call_le_iff, List.forall_mem_map]
    intro t ht
    have := ihargs hs₂ t ht
    omega

end ChoosesPositive

theorem pos_of_composite (hP : g.PicksPositive P) (hs : AllDraws P s)
    (hrule : g.rule? symbol = some rule)
    (hpick : pick (·.weight) (g.ruleAtDepth rule depth).alternatives s = .ok a s₁)
    (hterm : a.isTerminal = false) : 0 < depth :=
  hP.choosesPositive.pos_of_composite hs hrule hpick hterm

theorem Expands.height_le {ts : List (Derivation α)} (hP : g.PicksPositive P)
    (h : g.Expands symbols depth s ts s') (hs : AllDraws P s) :
    ∀ t ∈ ts, t.expr.height ≤ depth.toNat + 1 :=
  hP.choosesPositive.height_le h hs

theorem exists_expands_one (hP : g.PicksPositive P) (hs : AllDraws P s)
    (hsymbol : g.has symbol = true)
    (ih : ∀ {depth' : Int} {symbols : List String} {s : σ}, 0 < depth → depth' < depth →
      AllDraws P s → (∀ x ∈ symbols, g.has x = true) →
      ∃ ts s', g.Expands symbols depth' s ts s') :
    ∃ t s', g.Expands [symbol] depth s [t] s' := by
  obtain ⟨rule, hrule⟩ := exists_rule?_of_has hsymbol
  have hmem : g.ruleAtDepth rule depth ∈ g.rules := ruleAtDepth_mem (mem_of_rule? hrule)
  obtain ⟨a, ha, hpick, -⟩ := hP.exists_pick hmem hs
  cases hconst : a.isConstant with
  | true => exact ⟨_, _, .constant hrule hpick hconst .nil⟩
  | false =>
    cases hterm : a.isTerminal with
    | true => exact ⟨_, _, .leaf hrule hpick hterm hconst .nil⟩
    | false =>
      have hpos := pos_of_composite hP hs hrule hpick hterm
      obtain ⟨left, s₂, hdecay⟩ := exists_decays (α := α) depth (Source.next s : α × σ).2
      have hlt : left - 1 < depth := by
        have := hdecay.bounds hpos.le
        omega
      obtain ⟨ts, s₃, hts⟩ := ih hpos hlt (hdecay.allDraws hs.tail)
        fun x hx => has_of_mem_arguments hmem ha hx
      exact ⟨.node a ts, s₃, .composite hrule hpick hterm hdecay hts .nil⟩

theorem exists_expands (hP : g.PicksPositive P) (hs : AllDraws P s)
    (hsymbols : ∀ x ∈ symbols, g.has x = true) (depth : Int) :
    ∃ ts s', g.Expands symbols depth s ts s' := by
  -- arguments have a lower depth than their symbol, the symbols of a list have the same
  induction hn : depth.toNat using Nat.strong_induction_on generalizing depth symbols s with
  | _ n ihdepth =>
    subst hn
    induction symbols generalizing s with
    | nil => exact ⟨[], s, .nil⟩
    | cons symbol symbols ihs =>
      obtain ⟨hfirst, hrest⟩ := List.forall_mem_cons.1 hsymbols
      have hone : ∃ t s', g.Expands [symbol] depth s [t] s' :=
        exists_expands_one hP hs hfirst
          fun hpos hlt hs hx => ihdepth _ (by omega) hs hx _ rfl
      obtain ⟨t, s₁, ht⟩ := hone
      obtain ⟨ts, s', hts⟩ := ihs (ht.allDraws hs) hrest
      exact ⟨t :: ts, s', expands_cons_iff.2 ⟨s₁, ht, hts⟩⟩

/-- The expansion of one symbol fits the levels that `synthesize` allows. -/
theorem Expands.synthesize {t : Derivation α} (hP : g.PicksPositive P)
    (h : g.Expands [symbol] depth s [t] s') (hs : AllDraws P s) :
    g.synthesize symbol depth s = .ok (t.expr.text literal) s' := by
  have hheight := h.height_le hP hs t (List.mem_singleton_self t)
  refine synthesize_eq_ok_iff.2 ⟨t, h, rfl, ?_⟩
  unfold levelBound
  omega

theorem exists_expands_singleton (hP : g.PicksPositive P) (hs : AllDraws P s)
    (hsymbol : g.has symbol = true) (depth : Int) :
    ∃ t s', g.Expands [symbol] depth s [t] s' :=
  exists_expands_one hP hs hsymbol fun _ _ hs hx => exists_expands hP hs hx _

end Grammar

end SeededArt
