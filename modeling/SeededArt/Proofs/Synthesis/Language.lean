import SeededArt.Proofs.Grammar.Builtin
import SeededArt.Proofs.Sampling.Exact
import SeededArt.Proofs.Synthesis.Termination
/-!
# The language of a grammar

`Grammar.Derives` says which derivations a symbol has at a depth, without any draw: without depth
the leaves of the fallback rule, with depth left the leaves of the symbol's own rule and its
composite alternatives, whose arguments share one lower depth. Over exact numbers and draws of
`[0, 1)` these are the derivations of expansions, all of them and no others
(`derives_iff_exists_expands`), so their texts are what `synthesize` returns
(`synthesize_language`).

A derivation tells the draws that make it: for each choice the running sum before the alternative,
for the decay a zero for each step and then one half, for a constant the constant itself
(`Derives.exists_draws`). The draws of siblings follow each other.
-/

namespace SeededArt

open Arithmetic SeededArt.Random SeededArt.Valuation RoundedArithmetic ExactArithmetic

section Derives

variable {α : Type} [Arithmetic α]

/-- The derivations of a chosen leaf. -/
def Alternative.IsLeaf (a : Alternative α) (t : Derivation α) : Prop :=
  if a.isConstant then ∃ u, InUnit u ∧ t = .constant a u else t = .node a []

/-- Derivations of a symbol at a depth, by alternatives of positive weight. -/
inductive Grammar.Derives (g : Grammar α) : String → Int → Derivation α → Prop
  /-- Without depth, a leaf of the fallback rule. -/
  | spent {symbol : String} {depth : Int} {a : Alternative α} {t : Derivation α} :
      depth ≤ 0 → a ∈ g.fallbackRule.alternatives → less 0.0 a.weight = true → a.IsLeaf t →
      g.Derives symbol depth t
  /-- With depth left, a leaf of the symbol's own rule. -/
  | leaf {symbol : String} {depth : Int} {rule : Rule α} {a : Alternative α}
      {t : Derivation α} :
      1 ≤ depth → g.rule? symbol = some rule → a ∈ rule.alternatives →
      less 0.0 a.weight = true → a.isTerminal = true → a.IsLeaf t →
      g.Derives symbol depth t
  /-- With depth left, a composite alternative whose arguments share a depth below. -/
  | composite {symbol : String} {depth shared : Int} {rule : Rule α} {a : Alternative α}
      {children : List (Derivation α)} :
      1 ≤ depth → g.rule? symbol = some rule → a ∈ rule.alternatives →
      less 0.0 a.weight = true → a.isTerminal = false → -2 ≤ shared → shared ≤ depth - 1 →
      children.length = a.arguments.length →
      (∀ p ∈ a.arguments.zip children, g.Derives p.1 shared p.2) →
      g.Derives symbol depth (.node a children)

/-- The text of a derivation: the literal of a constant, and a call for everything else. -/
def Derivation.print : Derivation α → String
  | constant _ value => literal value
  | node chosen [] => chosen.emit ++ "()"
  | node chosen arguments =>
    chosen.emit ++ "(" ++ ", ".intercalate (arguments.map fun t => t.print) ++ ")"

theorem Derivation.text_expr (t : Derivation α) : t.expr.text literal = t.print := by
  induction t using Derivation.print.induct with
  | case1 a u => rw [expr_constant, Expr.text_number, print]
  | case2 a =>
    rw [expr_node, Expr.text_call, print, List.map_nil, List.map_nil, String.append_assoc,
      String.append_assoc]
    rfl
  | case3 a ts hne ih =>
    rw [expr_node, Expr.text_call, List.map_map, print]
    · congr 3
      exact List.map_congr_left ih
    · exact hne

end Derives

/-! ## Expansions are derivations -/

section Sound

variable {σ α : Type} [Arithmetic α] [Source σ α] {P : α → Prop} {g : Grammar α}
  {symbol : String} {symbols : List String} {depth : Int} {s s₁ s' : σ} {rule : Rule α}
  {a : Alternative α} {t : Derivation α} {ts : List (Derivation α)}

theorem Grammar.PicksPositive.derives_of_leaf (hP : g.PicksPositive P) (hs : AllDraws P s)
    (hrule : g.rule? symbol = some rule)
    (hpick : pick (·.weight) (g.ruleAtDepth rule depth).alternatives s = .ok a s₁)
    (hterm : a.isTerminal = true) (hleaf : a.IsLeaf t) : g.Derives symbol depth t := by
  obtain ⟨ha, hpos⟩ := hP.of_pick (ruleAtDepth_mem (mem_of_rule? hrule)) hs hpick
  unfold ruleAtDepth at ha
  split at ha
  next hdepth => exact .spent hdepth ha hpos hleaf
  next hdepth => exact .leaf (by omega) hrule ha hpos hterm hleaf

theorem Grammar.Expands.derives (hP : g.PicksPositive InUnit)
    (h : g.Expands symbols depth s ts s') (hs : AllDraws (InUnit (α := α)) s) :
    ts.length = symbols.length ∧ ∀ p ∈ symbols.zip ts, g.Derives p.1 depth p.2 := by
  induction h with
  | nil => simp
  | constant hrule hpick hconst _ ih =>
    have hs₁ := allDraws_of_pick hpick hs
    obtain ⟨hlength, hrest⟩ := ih hs₁.tail
    refine ⟨by simp [hlength], ?_⟩
    rw [List.zip_cons_cons, List.forall_mem_cons]
    refine ⟨hP.derives_of_leaf hs hrule hpick (Alternative.isTerminal_of_isConstant hconst) ?_,
      hrest⟩
    unfold Alternative.IsLeaf
    rw [if_pos hconst]
    exact ⟨_, hs₁.head, rfl⟩
  | leaf hrule hpick hterm hconst _ ih =>
    obtain ⟨hlength, hrest⟩ := ih (allDraws_of_pick hpick hs)
    refine ⟨by simp [hlength], ?_⟩
    rw [List.zip_cons_cons, List.forall_mem_cons]
    refine ⟨hP.derives_of_leaf hs hrule hpick hterm ?_, hrest⟩
    unfold Alternative.IsLeaf
    rw [if_neg (by simp [hconst])]
  | @composite symbol symbols depth left s s₁ s₂ s₃ s' rule a children ts hrule hpick hterm hdecay
      hargs _ ihargs ih =>
    have hs₂ := hdecay.allDraws (allDraws_of_pick hpick hs)
    obtain ⟨hlength, hrest⟩ := ih (hargs.allDraws hs₂)
    obtain ⟨hcount, hchildren⟩ := ihargs hs₂
    refine ⟨by simp [hlength], ?_⟩
    rw [List.zip_cons_cons, List.forall_mem_cons]
    refine ⟨?_, hrest⟩
    have hdepth := pos_of_composite hP hs hrule hpick hterm
    have hbounds := hdecay.bounds hdepth.le
    obtain ⟨ha, hpos⟩ := hP.of_pick (ruleAtDepth_mem (mem_of_rule? hrule)) hs hpick
    unfold ruleAtDepth at ha
    rw [if_neg (not_le.2 hdepth)] at ha
    exact .composite (by omega) hrule ha hpos hterm (by omega) (by omega) hcount hchildren

end Sound

/-! ## Derivations are expansions -/

section Complete

variable {α : Type} [Arithmetic α] {g : Grammar α} {symbol : String} {depth left : Int}
  {rule : Rule α} {a : Alternative α} {t : Derivation α}

theorem pick_cons {u : α} {r : Rule α} (h : choose (·.weight) r.alternatives u = .ok a)
    (s : Stream' α) : pick (·.weight) r.alternatives (Stream'.cons u s) = .ok a s := by
  rw [pick_eq]
  simp only [next_cons, h]

/-- The draws of siblings follow each other. -/
theorem Grammar.exists_draws_of_forall {symbols : List String} {ts : List (Derivation α)}
    (hlength : ts.length = symbols.length)
    (h : ∀ p ∈ symbols.zip ts, ∃ us : List α, (∀ u ∈ us, InUnit u) ∧
      ∀ rest : Stream' α, g.Expands [p.1] depth (us ++ₛ rest) [p.2] rest) :
    ∃ us : List α, (∀ u ∈ us, InUnit u) ∧
      ∀ rest : Stream' α, g.Expands symbols depth (us ++ₛ rest) ts rest := by
  induction symbols generalizing ts with
  | nil =>
    obtain rfl : ts = [] := List.eq_nil_of_length_eq_zero hlength
    exact ⟨[], by simp, fun rest => .nil⟩
  | cons symbol symbols ih =>
    cases ts with
    | nil => cases hlength
    | cons t ts =>
      rw [List.zip_cons_cons, List.forall_mem_cons] at h
      obtain ⟨⟨us, hus, ht⟩, hrest⟩ := h
      obtain ⟨vs, hvs, hts⟩ := ih (Nat.succ.inj hlength) hrest
      refine ⟨us ++ vs, List.forall_mem_append.2 ⟨hus, hvs⟩, fun rest => ?_⟩
      rw [Stream'.append_append_stream]
      exact expands_cons_iff.2 ⟨_, ht (vs ++ₛ rest), hts rest⟩

variable [ExactArithmetic α]

theorem less_half {u : α} {q : ℚ} (hu : value u = q) : less u 0.5 = decide (q < 1 / 2) := by
  rw [Bool.eq_iff_iff, less_iff_value, half_finite.2, hu, decide_eq_true_iff]

/-- Every depth from `-1` up to the depth itself is what some draws leave of it. -/
theorem exists_decays_draws (hlow : -1 ≤ left) (hhigh : left ≤ depth) :
    ∃ us : List α, (∀ u ∈ us, InUnit u) ∧
      ∀ rest : Stream' α, Decays α depth (us ++ₛ rest) left rest := by
  induction hn : (depth - left).toNat generalizing depth with
  | zero =>
    obtain rfl : depth = left := by omega
    by_cases hneg : depth < 0
    · exact ⟨[], by simp, fun rest => .negative hneg⟩
    · have hhalf : (1 / 2 : ℚ) < 1 := by norm_num
      obtain ⟨u, hu, hvalue⟩ := exists_inUnit (α := α) (by positivity) hhalf
      have hstop : less u 0.5 = false := (less_half hvalue).trans (by norm_num)
      exact ⟨[u], by simpa using hu, fun rest => .stop (by omega) hstop⟩
  | succ n ih =>
    have hbelow : left ≤ depth - 1 := by omega
    obtain ⟨us, hus, hdecays⟩ := ih hbelow (by omega)
    obtain ⟨u, hu, hvalue⟩ := exists_inUnit (α := α) le_rfl zero_lt_one
    have hstep : less u 0.5 = true := (less_half hvalue).trans (by norm_num)
    refine ⟨u :: us, List.forall_mem_cons.2 ⟨hu, hus⟩, fun rest => ?_⟩
    exact .step (s := Stream'.cons u (us ++ₛ rest)) (by omega) hstep (hdecays rest)

namespace Grammar

theorem exists_leaf_draws (hrule : g.rule? symbol = some rule)
    (ha : a ∈ (g.ruleAtDepth rule depth).alternatives) (hpos : less 0.0 a.weight = true)
    (hterm : a.isTerminal = true) (hleaf : a.IsLeaf t) :
    ∃ us : List α, (∀ u ∈ us, InUnit u) ∧
      ∀ rest : Stream' α, g.Expands [symbol] depth (us ++ₛ rest) [t] rest := by
  obtain ⟨u, hu, hchoose⟩ :=
    exists_choose_alternative (ruleAtDepth_mem (mem_of_rule? hrule)) ha hpos
  unfold Alternative.IsLeaf at hleaf
  split at hleaf
  next hconst =>
    obtain ⟨v, hv, rfl⟩ := hleaf
    refine ⟨[u, v], by simp [hu, hv], fun rest => ?_⟩
    exact .constant hrule (pick_cons hchoose (Stream'.cons v rest)) hconst .nil
  next hconst =>
    subst hleaf
    refine ⟨[u], by simp [hu], fun rest => ?_⟩
    exact .leaf hrule (pick_cons hchoose rest) hterm (by simpa using hconst) .nil

/-- Whatever is derived is expanded by some draws of the unit interval, and whatever follows them
is left. -/
theorem Derives.exists_draws (h : g.Derives symbol depth t) (hsymbol : g.has symbol = true) :
    ∃ us : List α, (∀ u ∈ us, InUnit u) ∧
      ∀ rest : Stream' α, g.Expands [symbol] depth (us ++ₛ rest) [t] rest := by
  induction h with
  | spent hdepth ha hpos hleaf =>
    obtain ⟨rule, hrule⟩ := exists_rule?_of_has hsymbol
    refine exists_leaf_draws hrule ?_ hpos (isTerminal_of_fallback ha hpos) hleaf
    rwa [ruleAtDepth, if_pos hdepth]
  | leaf hdepth hrule ha hpos hterm hleaf =>
    refine exists_leaf_draws hrule ?_ hpos hterm hleaf
    rwa [ruleAtDepth, if_neg (by omega)]
  | @composite symbol depth shared rule a children hdepth hrule ha hpos hterm hlow hhigh hlength _
      ih =>
    have hmem := mem_of_rule? hrule
    obtain ⟨u, hu, hchoose⟩ := exists_choose_alternative hmem ha hpos
    -- the arguments get one less than the decay leaves
    have hleft : -1 ≤ shared + 1 := by omega
    have hright : shared + 1 ≤ depth := by omega
    obtain ⟨ds, hds, hdecays⟩ := exists_decays_draws (α := α) hleft hright
    obtain ⟨us, hus, hchildren⟩ := exists_draws_of_forall hlength fun p hp =>
      ih p hp (has_of_mem_arguments hmem ha (List.of_mem_zip hp).1)
    refine ⟨u :: (ds ++ us), List.forall_mem_cons.2 ⟨hu, List.forall_mem_append.2 ⟨hds, hus⟩⟩,
      fun rest => ?_⟩
    rw [Stream'.cons_append_stream, Stream'.append_append_stream]
    have hpick : pick (·.weight) (g.ruleAtDepth rule depth).alternatives
        (Stream'.cons u (ds ++ₛ (us ++ₛ rest))) = .ok a (ds ++ₛ (us ++ₛ rest)) := by
      unfold ruleAtDepth
      rw [if_neg (by omega)]
      exact pick_cons hchoose _
    refine .composite hrule hpick hterm (hdecays (us ++ₛ rest)) ?_ .nil
    rw [show shared + 1 - 1 = shared by omega]
    exact hchildren rest

end Grammar

end Complete

section Language

variable {α : Type} [Arithmetic α] [ExactArithmetic α]

/-- The alternative that was chosen first. -/
def Derivation.chosen : Derivation α → Alternative α
  | constant chosen _ => chosen
  | node chosen _ => chosen

/-- Without depth only alternatives of the fallback rule are used. -/
theorem Grammar.Expands.chosen_mem_fallback {σ : Type} [Source σ α] {g : Grammar α}
    {symbol : String} {depth : Int} {s s' : σ} {t : Derivation α} (hdepth : depth ≤ 0)
    (h : g.Expands [symbol] depth s [t] s') (hs : AllDraws (InUnit (α := α)) s) :
    t.chosen ∈ g.fallbackRule.alternatives := by
  have hP := g.picksPositive_of_inUnit
  have hfallback {rule : Rule α} {a : Alternative α} {s₁ : σ}
      (hrule : g.rule? symbol = some rule)
      (hpick : pick (·.weight) (g.ruleAtDepth rule depth).alternatives s = .ok a s₁) :
      a ∈ g.fallbackRule.alternatives := by
    have ha := (hP.of_pick (ruleAtDepth_mem (mem_of_rule? hrule)) hs hpick).1
    rwa [ruleAtDepth, if_pos hdepth] at ha
  cases h with
  | constant hrule hpick => exact hfallback hrule hpick
  | leaf hrule hpick => exact hfallback hrule hpick
  | composite hrule hpick => exact hfallback hrule hpick

theorem Grammar.derives_iff_exists_expands {g : Grammar α} {symbol : String} {depth : Int}
    {t : Derivation α} (hsymbol : g.has symbol = true) :
    g.Derives symbol depth t ↔
      ∃ s s' : Stream' α, AllDraws (InUnit (α := α)) s ∧ g.Expands [symbol] depth s [t] s' := by
  constructor
  · intro h
    obtain ⟨us, hus, hexpands⟩ := h.exists_draws hsymbol
    obtain ⟨u, hu, -⟩ := exists_inUnit (α := α) le_rfl zero_lt_one
    exact ⟨_, Stream'.const u, allDraws_append hus (allDraws_const hu), hexpands _⟩
  · rintro ⟨s, s', hs, h⟩
    have hderives := (h.derives g.picksPositive_of_inUnit hs).2
    exact hderives (symbol, t) (by simp)

/-- The language of a symbol at a depth. -/
theorem Grammar.synthesize_language (g : Grammar α) {symbol : String}
    (hsymbol : g.has symbol = true) (depth : Int) :
    {text | ∃ s s' : Stream' α, AllDraws (InUnit (α := α)) s ∧
          g.synthesize symbol depth s = .ok text s'} =
        {text | ∃ t, g.Derives symbol depth t ∧ text = t.print} ∧
      (∀ t, g.Derives symbol depth t ↔ ∃ s s' : Stream' α, AllDraws (InUnit (α := α)) s ∧
        g.Expands [symbol] depth s [t] s' ∧ g.synthesize symbol depth s = .ok t.print s') ∧
      ∀ (called : String) (reached : Int) (s s' : Stream' α) (t : Derivation α), reached ≤ 0 →
        AllDraws (InUnit (α := α)) s → g.Expands [called] reached s [t] s' →
        t.chosen ∈ g.fallbackRule.alternatives := by
  have htext {t : Derivation α} {s s' : Stream' α} (hs : AllDraws (InUnit (α := α)) s)
      (h : g.Expands [symbol] depth s [t] s') : g.synthesize symbol depth s = .ok t.print s' := by
    rw [h.synthesize g.picksPositive_of_inUnit hs, t.text_expr]
  refine ⟨Set.ext fun text => ⟨?_, ?_⟩, fun t => ⟨fun h => ?_, ?_⟩, ?_⟩
  · rintro ⟨s, s', hs, h⟩
    obtain ⟨t, ht, rfl, -⟩ := synthesize_eq_ok_iff.1 h
    exact ⟨t, (derives_iff_exists_expands hsymbol).2 ⟨s, s', hs, ht⟩, t.text_expr⟩
  · rintro ⟨t, ht, rfl⟩
    obtain ⟨s, s', hs, h⟩ := (derives_iff_exists_expands hsymbol).1 ht
    exact ⟨s, s', hs, htext hs h⟩
  · obtain ⟨s, s', hs, h'⟩ := (derives_iff_exists_expands hsymbol).1 h
    exact ⟨s, s', hs, h', htext hs h'⟩
  · rintro ⟨s, s', hs, h, -⟩
    exact (derives_iff_exists_expands hsymbol).2 ⟨s, s', hs, h⟩
  · intro called reached s s' t hreached hs h
    exact h.chosen_mem_fallback hreached hs

theorem Grammar.texts_perrig :
    ∃ g : Grammar ℚ, Builtin.assemble "perrig" Builtin.perrigRules = .ok g ∧ g.has "E" = true ∧
      {text | ∃ s s' : Stream' ℚ, AllDraws (InUnit (α := ℚ)) s ∧
        g.synthesize "E" 3 s = .ok text s'} = {text | ∃ t, g.Derives "E" 3 t ∧ text = t.print} := by
  obtain ⟨g, hg, hsymbol, -⟩ :=
    Builtin.exists_assemble_rat (p := ("perrig", Builtin.perrigRules)) List.mem_cons_self
  exact ⟨g, hg, hsymbol, (synthesize_language g hsymbol 3).1⟩

end Language

end SeededArt
