import Mathlib.Logic.Relation
import SeededArt.Proofs.Render.Typing
import SeededArt.Proofs.Synthesis.RoundTrip
/-!
# Grammars of drawable expressions

A grammar is drawable if its start rule joins three channels and every rule that a channel can be
expanded from, the fallback rule among them, has scalar alternatives (`Grammar.IsDrawable`).
Alternatives without weight do not count, since no draw chooses them. The fallback rule can end
every argument, whatever rule the argument names.

Expansions of the arguments are then scalar expressions (`Expands.isScalar`), and with depth left
the start rule expands to a colour expression (`Expands.isColour`), whose text compiles
(`exists_compile_of_isDrawable`). The grammars of the library are drawable.
-/

namespace SeededArt

open Arithmetic SeededArt.Random Render

section Drawable

variable {α : Type}

/-- An alternative with a scalar value: a constant, or a call of a function with a scalar value on
as many arguments as it takes. -/
def Alternative.IsScalar (a : Alternative α) : Prop :=
  a.isConstant = true ∨
    a.emit ≠ "E" ∧ ∃ f ∈ Function.ofName? a.emit, a.arity = f.arity

/-- An alternative that joins three channels. -/
def Alternative.IsColour (a : Alternative α) : Prop := a.emit = "E" ∧ a.arity = 3

instance (a : Alternative α) : Decidable a.IsScalar :=
  inferInstanceAs (Decidable (a.isConstant = true ∨
    a.emit ≠ "E" ∧ ∃ f ∈ Function.ofName? a.emit, a.arity = f.arity))

instance (a : Alternative α) : Decidable a.IsColour :=
  inferInstanceAs (Decidable (a.emit = "E" ∧ a.arity = 3))

theorem Alternative.IsScalar.call {P : α → Prop} {a : Alternative α} (ha : a.IsScalar)
    (hconst : a.isConstant = false) {es : List (Expr α)} (hcount : es.length = a.arity)
    (hes : ∀ e ∈ es, Render.IsScalar P e) : Render.IsScalar P (.call a.emit es) := by
  rcases ha with ha | ⟨hne, f, hf, harity⟩
  · rw [ha] at hconst
    cases hconst
  · exact .call hf hne (hcount.trans harity) hes

theorem Alternative.IsScalar.leaf {P : α → Prop} {a : Alternative α} (ha : a.IsScalar)
    (hterm : a.isTerminal = true) (hconst : a.isConstant = false) :
    Render.IsScalar P (.call a.emit [] : Expr α) := by
  refine ha.call hconst ?_ (by simp)
  rw [Alternative.isTerminal, List.isEmpty_iff] at hterm
  rw [Alternative.arity, hterm]
  rfl

variable [Arithmetic α]

/-- The alternatives of a rule that have weight. -/
def Rule.weighted (r : Rule α) : List (Alternative α) :=
  r.alternatives.filter fun a => less 0.0 a.weight

theorem Rule.mem_weighted {r : Rule α} {a : Alternative α} :
    a ∈ r.weighted ↔ a ∈ r.alternatives ∧ less 0.0 a.weight = true := by
  unfold weighted
  rw [List.mem_filter]

namespace Grammar

/-- A rule leads to the rules of the arguments of its weighted alternatives. -/
def Leads (g : Grammar α) (symbol argument : String) : Prop :=
  ∃ r ∈ g.rule? symbol, ∃ a ∈ r.weighted, argument ∈ a.arguments

/-- The start rule joins three channels. Whatever a channel can be expanded from is scalar. -/
structure IsDrawable (g : Grammar α) : Prop where
  start : ∀ r ∈ g.rule? g.start, ∀ a ∈ r.weighted, a.IsColour
  fallback : ∀ a ∈ g.fallbackRule.weighted, a.IsScalar
  channels : ∀ symbol, Relation.TransGen g.Leads g.start symbol →
    ∀ r ∈ g.rule? symbol, ∀ a ∈ r.weighted, a.IsScalar

/-- The start rule joins three channels, and a list of scalar rules holds all rules that the start
rule and the list itself lead to. -/
def DrawableBy (g : Grammar α) (symbols : List String) : Prop :=
  (∀ r ∈ g.rule? g.start, ∀ a ∈ r.weighted, a.IsColour) ∧
    (∀ a ∈ g.fallbackRule.weighted, a.IsScalar) ∧
    (∀ symbol ∈ g.start :: symbols, ∀ r ∈ g.rule? symbol, ∀ a ∈ r.weighted,
      ∀ argument ∈ a.arguments, argument ∈ symbols) ∧
    ∀ symbol ∈ symbols, ∀ r ∈ g.rule? symbol, ∀ a ∈ r.weighted, a.IsScalar

instance (g : Grammar α) (symbols : List String) : Decidable (g.DrawableBy symbols) :=
  inferInstanceAs (Decidable (_ ∧ _ ∧ _ ∧ _))

theorem DrawableBy.isDrawable {g : Grammar α} {symbols : List String}
    (h : g.DrawableBy symbols) : g.IsDrawable := by
  obtain ⟨hstart, hfallback, hclosed, hscalar⟩ := h
  have hmem {symbol argument : String} (hsymbol : symbol ∈ g.start :: symbols)
      (hleads : g.Leads symbol argument) : argument ∈ symbols := by
    obtain ⟨r, hr, a, ha, hargument⟩ := hleads
    exact hclosed symbol hsymbol r hr a ha argument hargument
  refine ⟨hstart, hfallback, fun symbol hreached => hscalar symbol ?_⟩
  induction hreached with
  | single hleads => exact hmem List.mem_cons_self hleads
  | tail _ hleads ih => exact hmem (List.mem_cons_of_mem _ ih) hleads

variable {σ : Type} [Source σ α] {P : α → Prop} {g : Grammar α} {symbol : String}
  {symbols : List String} {depth : Int} {s s₁ s' : σ} {rule : Rule α} {a : Alternative α}
  {ts : List (Derivation α)} {t : Derivation α}

theorem ChoosesPositive.mem_weighted (hP : g.ChoosesPositive P) (hs : AllDraws P s)
    (hrule : g.rule? symbol = some rule)
    (hpick : pick (·.weight) (g.ruleAtDepth rule depth).alternatives s = .ok a s₁) :
    a ∈ (g.ruleAtDepth rule depth).weighted :=
  Rule.mem_weighted.2
    ⟨mem_of_pick hpick, hP.of_pick (ruleAtDepth_mem (mem_of_rule? hrule)) hs hpick⟩

theorem IsDrawable.isScalar_of_pick (hg : g.IsDrawable) (hP : g.ChoosesPositive P)
    (hs : AllDraws P s) (hsymbol : Relation.TransGen g.Leads g.start symbol)
    (hrule : g.rule? symbol = some rule)
    (hpick : pick (·.weight) (g.ruleAtDepth rule depth).alternatives s = .ok a s₁) :
    a.IsScalar := by
  have ha := hP.mem_weighted hs hrule hpick
  unfold ruleAtDepth at ha
  split at ha
  next => exact hg.fallback a ha
  next => exact hg.channels symbol hsymbol rule hrule a ha

/-- Whatever a channel leads to expands to scalar expressions. -/
theorem Expands.isScalar (hg : g.IsDrawable) (hP : g.ChoosesPositive P)
    (h : g.Expands symbols depth s ts s') (hs : AllDraws P s)
    (hsymbols : ∀ x ∈ symbols, Relation.TransGen g.Leads g.start x) :
    ∀ t ∈ ts, IsScalar P t.expr := by
  induction h with
  | nil => simp
  | constant hrule hpick hconst _ ih =>
    have hs₁ := allDraws_of_pick hpick hs
    rw [List.forall_mem_cons] at hsymbols ⊢
    rw [Derivation.expr_constant]
    exact ⟨.number hs₁.head, ih hs₁.tail hsymbols.2⟩
  | leaf hrule hpick hterm hconst _ ih =>
    rw [List.forall_mem_cons] at hsymbols ⊢
    rw [Derivation.expr_node, List.map_nil]
    have ha := hg.isScalar_of_pick hP hs hsymbols.1 hrule hpick
    exact ⟨ha.leaf hterm hconst, ih (allDraws_of_pick hpick hs) hsymbols.2⟩
  | @composite symbol _ depth _ _ _ _ _ _ rule a _ _ hrule hpick hterm hdecay hargs _ ihargs ih =>
    have hs₂ := hdecay.allDraws (allDraws_of_pick hpick hs)
    rw [List.forall_mem_cons] at hsymbols ⊢
    rw [Derivation.expr_node]
    refine ⟨?_, ih (hargs.allDraws hs₂) hsymbols.2⟩
    have ha := hg.isScalar_of_pick hP hs hsymbols.1 hrule hpick
    have hconst : a.isConstant = false := by rw [Alternative.isConstant, hterm, Bool.false_and]
    -- the alternative is one of the rule itself, so its arguments are led to as well
    have hdepth := hP.pos_of_composite hs hrule hpick hterm
    have hmem := hP.mem_weighted hs hrule hpick
    unfold ruleAtDepth at hmem
    rw [if_neg (not_le.2 hdepth)] at hmem
    refine ha.call hconst ?_ ?_
    · rw [List.length_map, hargs.length_eq]
      rfl
    · rw [List.forall_mem_map]
      exact ihargs hs₂ fun x hx => hsymbols.1.tail ⟨rule, hrule, a, hmem, hx⟩

/-- With depth left, the start rule expands to a colour expression. -/
theorem Expands.isColour (hg : g.IsDrawable) (hP : g.ChoosesPositive P) (hdepth : 1 ≤ depth)
    (h : g.Expands [g.start] depth s [t] s') (hs : AllDraws P s) : IsColour P t.expr := by
  have hstart {rule : Rule α} {a : Alternative α} {s₁ : σ} (hrule : g.rule? g.start = some rule)
      (hpick : pick (·.weight) (g.ruleAtDepth rule depth).alternatives s = .ok a s₁) :
      a ∈ rule.weighted ∧ a.IsColour := by
    have ha := hP.mem_weighted hs hrule hpick
    unfold ruleAtDepth at ha
    rw [if_neg (by omega)] at ha
    exact ⟨ha, hg.start rule hrule a ha⟩
  have hleaf {rule : Rule α} {a : Alternative α} {s₁ : σ} (hrule : g.rule? g.start = some rule)
      (hpick : pick (·.weight) (g.ruleAtDepth rule depth).alternatives s = .ok a s₁) :
      a.isTerminal = false := by
    have harity := (hstart hrule hpick).2.2
    unfold Alternative.arity at harity
    rw [Alternative.isTerminal, List.isEmpty_eq_false_iff_exists_mem]
    exact List.exists_mem_of_length_pos (by omega)
  cases h with
  | constant hrule hpick hconst =>
    rw [Alternative.isConstant, hleaf hrule hpick] at hconst
    cases hconst
  | leaf hrule hpick hterm =>
    rw [hleaf hrule hpick] at hterm
    cases hterm
  | @composite _ _ _ _ _ _ _ _ _ rule a children _ hrule hpick hterm hdecay hargs hrest =>
    obtain ⟨hmem, hemit, harity⟩ := hstart hrule hpick
    have hscalar := hargs.isScalar hg hP (hdecay.allDraws (allDraws_of_pick hpick hs))
      fun x hx => .single ⟨rule, hrule, a, hmem, hx⟩
    obtain ⟨red, green, blue, rfl⟩ := List.length_eq_three.1 (hargs.length_eq.trans harity)
    simp only [List.forall_mem_cons] at hscalar
    obtain ⟨hred, hgreen, hblue, -⟩ := hscalar
    rw [Derivation.expr_node, hemit]
    exact .channels hred hgreen hblue

end Grammar

end Drawable

/-- The grammars of the library are drawable, and all their alternatives have weight. -/
theorem Builtin.exists_assemble_isDrawable {p : String × List (Rule Float)} (hp : p ∈ tables) :
    ∃ g, assemble p.1 p.2 = .ok g ∧ g.IsDrawable ∧ ∀ r ∈ g.rules, r.weighted = r.alternatives := by
  have hall : ∀ p ∈ tables (α := Float), assembles (fun g => decide (g.DrawableBy ["A", "C"] ∧
      ∀ r ∈ g.rules, ∀ a ∈ r.alternatives, less 0.0 a.weight = true)) p.1 p.2 = true := by
    decide +kernel
  obtain ⟨g, hg, hcheck⟩ := exists_assemble (hall p hp)
  obtain ⟨hdrawable, hweights⟩ := decide_eq_true_iff.1 hcheck
  exact ⟨g, hg, hdrawable.isDrawable, fun r hr => List.filter_eq_self.2 (hweights r hr)⟩

namespace Grammar

/-- What a drawable grammar synthesizes from its start rule compiles, whatever the draws. The
grammars of the library are drawable. -/
theorem exists_compile_synthesize :
    (∀ g : Grammar Float, g.IsDrawable → ∀ {σ ν : Type} [Source σ Float] [Scalar ν] {depth : Int}
        {s s' : σ} {text : String}, 1 ≤ depth → AllDraws (InUnit (α := Float)) s →
        g.synthesize g.start depth s = .ok text s' →
        ∃ program : Program ν, Program.compile text = .ok program) ∧
      ∀ p ∈ Builtin.tables (α := Float), ∃ g, Builtin.assemble p.1 p.2 = .ok g ∧ g.IsDrawable ∧
        ∀ r ∈ g.rules, r.weighted = r.alternatives := by
  refine ⟨?_, fun p hp => Builtin.exists_assemble_isDrawable hp⟩
  intro g hg σ ν _ _ depth s s' text hdepth hs h
  obtain ⟨t, ht, rfl, -⟩ := synthesize_eq_ok_iff.1 h
  have hcolour := ht.isColour hg g.choosesPositive_of_inUnit hdepth hs
  have hread : ∀ u : Float, InUnit u → Expr.ReadsNumber (literal u) (written (literal u)) :=
    fun u => readsNumber_literal
  exact hcolour.exists_compile hread

/-- The grammar with sums and products, drawn by a generator. -/
theorem exists_compile_perrig :
    ∃ g : Grammar Float, Builtin.assemble "perrig" Builtin.perrigRules = .ok g ∧ g.IsDrawable ∧
      AllDraws (InUnit (α := Float)) (Mulberry.ofSeed "art") ∧
      ∃ (text : String) (s' : Mulberry) (program : Program Float32),
        g.synthesize g.start 4 (Mulberry.ofSeed "art") = .ok text s' ∧
          Program.compile text = .ok program := by
  obtain ⟨hcompile, htables⟩ := exists_compile_synthesize
  obtain ⟨g, hg, hdrawable, -⟩ := htables ("perrig", Builtin.perrigRules) List.mem_cons_self
  have hwords : AllDraws (IsWordFraction (α := Float)) (Mulberry.ofSeed "art") :=
    allDraws_mulberry _
  have hunit : AllDraws (InUnit (α := Float)) (Mulberry.ofSeed "art") := by
    intro n
    exact (hwords n).inUnit
  have hP := g.picksPositive_of_isWordFraction
  obtain ⟨t, s', ht⟩ := exists_expands_singleton hP hwords g.has_start 4
  have hsynth := ht.synthesize hP hwords
  obtain ⟨program, hprogram⟩ : ∃ program : Program Float32,
      Program.compile (t.expr.text literal) = .ok program :=
    hcompile g hdrawable (by decide) hunit hsynth
  exact ⟨g, hg, hdrawable, hunit, _, s', program, hsynth, hprogram⟩

end Grammar

end SeededArt
