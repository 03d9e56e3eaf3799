import SeededArt.Proofs.Decimal.Single
import SeededArt.Proofs.Expr.Reading
import SeededArt.Proofs.Sampling.Unit
import SeededArt.Proofs.Synthesis.CheckedDepth
import SeededArt.Proofs.Synthesis.Language
/-!
# Synthesized texts read back

A double of `[0, 1)` is finite, so its literal is a decimal (`readsNumber_literal`), which is read
as the single nearest to what it says (`isNearestToText_literal`). If all functions of a grammar
have identifiers for names, the expression of every expansion is therefore `Expr.Readable`, and its
text reads back as that expression (`parse_synthesize`).
-/

namespace SeededArt

open Arithmetic SeededArt.Random Decimal SeededArt.Expr Float.Model Float.Model.UnpackedFloat
  SeededArt.Valuation

/-! ## Literals of doubles -/

theorem exists_signed_of_finite {u : Float} (h : isFinite u = true) :
    ∃ negative m e, Signed.ofFloat u = ⟨negative, .finite m e⟩ := by
  obtain ⟨negative, m, e, hbits, -⟩ := exists_hasBits_double h
  exact ⟨negative, m, e, hbits.signed (by decide)⟩

/-! ## Decimals inside expressions -/

section Decimals

variable {c : Char} {cs : List Char}

theorem isPlain_of_isDecimalChar (h : IsDecimalChar c) : IsPlain c := by
  rcases h with h | rfl | rfl | rfl
  · have hrange := toNat_of_isDigit h
    refine ⟨?_, ?_, ?_⟩ <;>
    · rintro rfl
      simp at hrange
  · simp [IsPlain]
  · simp [IsPlain]
  · simp [IsPlain]

theorem isBlank_of_isDecimalChar (h : IsDecimalChar c) : Text.isBlank c = false := by
  rcases h with h | rfl | rfl | rfl
  · have hrange := toNat_of_isDigit h
    exact Text.isBlank_of_range (by omega) (by omega)
  · decide
  · decide
  · decide

theorem startsNumber_of_isDecimal (h : IsDecimal cs) :
    ∃ c rest, cs = c :: rest ∧ startsNumber c = true := by
  rcases h with h | ⟨rest, rfl, h⟩
  · obtain ⟨c, rest, rfl, hdigit⟩ := h.exists_cons
    exact ⟨c, rest, rfl, by rw [startsNumber, hdigit, Bool.true_or, Bool.true_or]⟩
  · exact ⟨'-', rest, rfl, by decide⟩

end Decimals

/-- The number that a text says, and not-a-number if it says none. -/
def written (text : String) : Numeral := (Numeral.read? text).getD (.notANumber false)

theorem readsNumber_of_isDecimal {text : String} (h : IsDecimal text.toList) :
    ReadsNumber text (written text) := by
  obtain ⟨negative, q, hsays⟩ := h.exists_number
  obtain ⟨d, p, hn, -⟩ := hsays.exists_readChars?
  have hread : Numeral.read? text = some (.finite negative d p) := hn
  refine ⟨startsNumber_of_isDecimal h, fun c hc => ?_, ?_⟩
  · have hchar := h.isDecimalChar c hc
    exact ⟨isPlain_of_isDecimalChar hchar, isBlank_of_isDecimalChar hchar⟩
  · unfold written
    rw [hread, Option.getD_some]
    exact hn

theorem isDecimal_of_finite {u : Float} (h : isFinite u = true) : IsDecimal (literal u).toList := by
  obtain ⟨negative, m, e, hsigned⟩ := exists_signed_of_finite h
  show IsDecimal (Layout.literal.signedText .binary64 (Signed.ofFloat u)).toList
  rw [hsigned]
  exact isDecimal_literal .binary64 negative m e

theorem readsNumber_literal {u : Float} (h : InUnit u) :
    ReadsNumber (literal u) (written (literal u)) :=
  readsNumber_of_isDecimal (isDecimal_of_finite (isFinite_of_inUnit h))

theorem exists_read?_literal_zero {u : Float} (h : isFinite u = true) (hzero : value u = 0) :
    ∃ negative, Numeral.read? (literal u) = some (.finite negative 0 (-1)) := by
  obtain ⟨negative, m, e, hbits, hunpack⟩ := exists_hasBits_double h
  have hvalue : value u = signed (signOf negative) (m * 2 ^ e) :=
    (congrArg unpackedValue hunpack).trans (unpackedValue_assemble _ m e)
  obtain rfl : m = 0 := by
    by_contra hm
    have hpos := magnitude_pos (Nat.pos_of_ne_zero hm) e
    have habs := abs_signed (signOf negative) (m * 2 ^ e)
    rw [← hvalue, hzero, abs_zero, abs_of_pos hpos] at habs
    exact hpos.ne habs
  refine ⟨negative, ?_⟩
  have hliteral : literal u = Layout.literal.signedText .binary64 ⟨negative, .finite 0 e⟩ :=
    congrArg (Layout.literal.signedText .binary64) (hbits.signed (by decide))
  cases negative with
  | false => exact hliteral ▸ (rfl : Numeral.read? "0.0" = some (.finite false 0 (-1)))
  | true => exact hliteral ▸ (rfl : Numeral.read? "-0.0" = some (.finite true 0 (-1)))

/-- The literal of a double below one is read as the single nearest to what it says. -/
theorem isNearestToText_literal {u : Float} (h : InUnit u) :
    IsNearestToText (literal u) (written (literal u)).toFloat32 := by
  have hfinite := isFinite_of_inUnit h
  obtain ⟨hnonneg, hlt⟩ := (inUnit_iff_of_finite hfinite).1 h
  obtain ⟨negative, q, hsays⟩ := (isDecimal_of_finite hfinite).exists_number
  obtain ⟨d, p, hread, rfl⟩ := hsays.exists_readChars?
  refine ⟨negative, _, hsays, ?_⟩
  rw [written, Numeral.read?, hread, Option.getD_some]
  rcases hnonneg.lt_or_eq with hpos | hzero
  · obtain ⟨d', p', hread', hdouble, hnearest⟩ := exists_read?_literal hfinite hpos
    obtain ⟨rfl, rfl, rfl⟩ := Numeral.finite.inj (Option.some.inj (hread.symm.trans hread'))
    obtain ⟨m, e, hm, hunpack⟩ := exists_unpack_of_pos hfinite hpos
    obtain ⟨hd, hlow, hhigh⟩ := inRange_of_toFloat (hdouble ▸ hunpack)
    have hless := lt_of_nearest_lt representable_one (hnearest ▸ hlt)
    exact isNearestSingle_toFloat32 false (.inr hlow) hhigh
      (nearestMagnitude_lt_of_lt_one (by positivity) hless)
  · obtain ⟨negative', hread'⟩ := exists_read?_literal_zero hfinite hzero.symm
    obtain ⟨rfl, rfl, rfl⟩ := Numeral.finite.inj (Option.some.inj (hread.symm.trans hread'))
    refine isNearestSingle_toFloat32 negative (.inl rfl) (by decide) ?_
    rw [Nat.cast_zero, zero_mul, nearestMagnitude_zero]
    exact two_zpow_pos 128

theorem Expr.map_map {ν μ ξ : Type} (f : ν → μ) (f' : μ → ξ) (e : Expr ν) :
    (e.map f).map f' = e.map (f' ∘ f) := by
  induction e using Expr.map.induct with
  | case1 value => rw [Expr.map, Expr.map, Expr.map]; rfl
  | case2 function arguments ih =>
    rw [Expr.map, Expr.map, Expr.map, List.map_map]
    congr 1
    exact List.map_congr_left ih

/-- The constants of a derivation, from left to right. -/
def Derivation.values {α : Type} : Derivation α → List α
  | constant _ value => [value]
  | node _ arguments => arguments.flatMap fun t => t.values

section RoundTrip

variable {σ : Type} [Source σ Float] {g : Grammar Float} {symbol : String} {depth : Int}
  {symbols : List String} {s s' : σ} {t : Derivation Float} {ts : List (Derivation Float)}

/-- The constants of an expansion are draws. -/
theorem Grammar.Expands.forall_constants {P : Float → Prop}
    (h : g.Expands symbols depth s ts s') (hs : AllDraws P s) :
    ∀ t ∈ ts, ∀ u ∈ t.values, P u := by
  induction h with
  | nil => simp
  | constant _ hpick _ _ ih =>
    have hs₁ := allDraws_of_pick hpick hs
    rw [List.forall_mem_cons, Derivation.values]
    exact ⟨List.forall_mem_singleton.2 hs₁.head, ih hs₁.tail⟩
  | leaf _ hpick _ _ _ ih =>
    rw [List.forall_mem_cons, Derivation.values]
    exact ⟨by simp, ih (allDraws_of_pick hpick hs)⟩
  | composite _ hpick _ hdecay hargs _ ihargs ih =>
    have hs₂ := hdecay.allDraws (allDraws_of_pick hpick hs)
    rw [List.forall_mem_cons, Derivation.values, List.forall_mem_flatMap]
    exact ⟨ihargs hs₂, ih (hargs.allDraws hs₂)⟩

theorem Grammar.Expands.readable (hnames : g.NamesAreIdentifiers)
    (h : g.Expands symbols depth s ts s') (hs : AllDraws (InUnit (α := Float)) s) :
    ∀ t ∈ ts, Readable literal (fun u : Float => written (literal u)) t.expr := by
  have hname {symbol : String} {rule : Rule Float} {a : Alternative Float} {depth : Int} {s s₁ : σ}
      (hrule : g.rule? symbol = some rule)
      (hpick : pick (·.weight) (g.ruleAtDepth rule depth).alternatives s = .ok a s₁)
      (hconst : a.isConstant = false) : isIdentifier a.emit.toList = true :=
    hnames _ (ruleAtDepth_mem (mem_of_rule? hrule)) a (mem_of_pick hpick) hconst
  induction h with
  | nil => simp
  | constant _ hpick _ _ ih =>
    have hs₁ := allDraws_of_pick hpick hs
    rw [List.forall_mem_cons, Derivation.expr_constant]
    exact ⟨.number (readsNumber_literal hs₁.head), ih hs₁.tail⟩
  | leaf hrule hpick _ hconst _ ih =>
    rw [List.forall_mem_cons, Derivation.expr_node]
    exact ⟨.call (hname hrule hpick hconst) (by simp), ih (allDraws_of_pick hpick hs)⟩
  | composite hrule hpick hterm hdecay hargs _ ihargs ih =>
    have hs₂ := hdecay.allDraws (allDraws_of_pick hpick hs)
    rw [List.forall_mem_cons, Derivation.expr_node]
    refine ⟨.call (hname hrule hpick ?_) ?_, ih (hargs.allDraws hs₂)⟩
    · rw [Alternative.isConstant, hterm, Bool.false_and]
    · rw [List.forall_mem_map]
      exact ihargs hs₂

/-- What is synthesized reads back as the one derivation of the run: a call for each chosen
alternative, and for each constant the single nearest to what its literal says. -/
theorem Grammar.parse_synthesize (g : Grammar Float) (hnames : g.NamesAreIdentifiers)
    {symbol text : String} {depth : Int} {s s' : σ} (hs : AllDraws (InUnit (α := Float)) s)
    (h : g.synthesize symbol depth s = .ok text s') :
    ∃ t, (∀ u s'', g.Expands [symbol] depth s [u] s'' ↔ u = t ∧ s'' = s') ∧ text = t.print ∧
      (Expr.parse text).map (Expr.map Numeral.toFloat32) =
        .ok (t.expr.map fun u => (written (literal u)).toFloat32) ∧
      ∀ u ∈ t.values, InUnit u ∧ IsNearestToText (literal u) (written (literal u)).toFloat32 := by
  obtain ⟨t, ht, rfl, -⟩ := synthesize_eq_ok_iff.1 h
  have hread := (ht.readable hnames hs t List.mem_cons_self).parse_text
  refine ⟨t, fun u s'' => ⟨fun hu => ?_, ?_⟩, t.text_expr, ?_, fun u hu => ?_⟩
  · obtain ⟨hts, hsource⟩ := ht.unique hu
    exact ⟨(List.cons.inj hts).1, hsource⟩
  · rintro ⟨rfl, rfl⟩
    exact ht
  · rw [hread, Except.map, map_map]
    rfl
  · have hunit := ht.forall_constants hs t List.mem_cons_self u hu
    exact ⟨hunit, isNearestToText_literal hunit⟩

end RoundTrip

/-- The texts of a generator's runs read back. -/
theorem Grammar.exists_parse_perrig :
    ∃ g : Grammar Float, Builtin.assemble "perrig" Builtin.perrigRules = .ok g ∧
      g.NamesAreIdentifiers ∧ AllDraws (InUnit (α := Float)) (Mulberry.ofSeed "art") ∧
      ∃ (text : String) (s' : Mulberry), g.synthesize "E" 4 (Mulberry.ofSeed "art") = .ok text s' ∧
        ∃ t : Derivation Float, text = t.print ∧
          (Expr.parse text).map (Expr.map Numeral.toFloat32) =
            .ok (t.expr.map fun u => (written (literal u)).toFloat32) ∧
          ∀ u ∈ t.values, IsNearestToText (literal u) (written (literal u)).toFloat32 := by
  obtain ⟨g, hg, hsymbol, hnames⟩ :=
    Builtin.exists_assemble_float (p := ("perrig", Builtin.perrigRules)) List.mem_cons_self
  have hwords : AllDraws (IsWordFraction (α := Float)) (Mulberry.ofSeed "art") :=
    allDraws_mulberry _
  have hunit : AllDraws (InUnit (α := Float)) (Mulberry.ofSeed "art") := by
    intro n
    exact (hwords n).inUnit
  obtain ⟨t, s', ht⟩ := exists_expands_singleton g.picksPositive_of_isWordFraction hwords hsymbol 4
  have hsynth := ht.synthesize g.picksPositive_of_isWordFraction hwords
  obtain ⟨u, -, htext, hparse, hconstants⟩ := parse_synthesize g hnames hunit hsynth
  exact ⟨g, hg, hnames, hunit, _, s', hsynth, u, htext, hparse, fun v hv => (hconstants v hv).2⟩

end SeededArt
