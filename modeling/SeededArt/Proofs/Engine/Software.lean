import SeededArt.Proofs.Engine.Generation
/-!
# Pictures that the software backend draws

With depth left, what a drawable grammar synthesizes from a seed is a colour expression, so it
compiles and an image of the size is drawn. Without depth the root itself is taken from the fallback
rule, so it is a scalar (`Grammar.Expands.isScalar_of_exhausted`) and no program
(`Render.IsScalar.compile_eq_error`). The check of options lets a depth of zero pass, so an accepted
picture of a grammar of the library is drawn exactly if its depth is positive
(`drawStandard_software`).
-/

namespace SeededArt

open Arithmetic SeededArt.Random Render

/-! ## Scalars at the root -/

section Scalars

namespace Render

open Decimal SeededArt.Expr

variable {ν μ : Type} [Scalar μ] {P : ν → Prop} {e : Expr ν} {literal : ν → String}
  {read : ν → Numeral}

/-- What is wrong with an expression whose root is no colour. -/
def rootFault : Expr ν → SoftwareFault
  | .number _ => .numberAtRoot
  | .call name _ => .scalarAtRoot name

theorem IsScalar.compile_eq_error (hread : ∀ u, P u → ReadsNumber (literal u) (read u))
    (h : IsScalar P e) :
    (Program.compile (e.text literal) : Except _ (Program μ)) = .error (rootFault e) := by
  unfold Program.compile
  rw [(h.readable hread).parse_text]
  cases h with
  | number => rw [Expr.map]; rfl
  | @call name f arguments hname hne hcount _ =>
    have hlookup : Node.lookup name (arguments.map fun e => e.map read).length = .ok f :=
      Node.lookup_of_ofName? hname (by rwa [List.length_map])
    rw [Expr.map]
    simp only [Program.ofExpr, hlookup, bind, Except.bind,
      if_pos (Function.ne_colour_of_ofName? hname hne)]
    rfl

end Render

end Scalars

section Exhausted

variable {σ α : Type} [Arithmetic α] [Source σ α] {P : α → Prop} {g : Grammar α} {depth : Int}
  {s s' : σ} {t : Derivation α}

/-- Without depth, the start rule of a drawable grammar expands to a scalar expression. -/
theorem Grammar.Expands.isScalar_of_exhausted (hg : g.IsDrawable) (hP : g.ChoosesPositive P)
    (hdepth : depth ≤ 0) (h : g.Expands [g.start] depth s [t] s') (hs : AllDraws P s) :
    IsScalar P t.expr := by
  have hfallback {rule : Rule α} {a : Alternative α} {s₁ : σ} (hrule : g.rule? g.start = some rule)
      (hpick : pick (·.weight) (g.ruleAtDepth rule depth).alternatives s = .ok a s₁) :
      a.IsScalar := by
    have ha := hP.mem_weighted hs hrule hpick
    unfold ruleAtDepth at ha
    rw [if_pos hdepth] at ha
    exact hg.fallback a ha
  cases h with
  | constant hrule hpick hconst =>
    rw [Derivation.expr_constant]
    exact .number (allDraws_of_pick hpick hs).head
  | leaf hrule hpick hterm hconst =>
    rw [Derivation.expr_node, List.map_nil]
    exact (hfallback hrule hpick).leaf hterm hconst
  | composite hrule hpick hterm =>
    exact absurd (hP.pos_of_composite hs hrule hpick hterm) (not_lt.2 hdepth)

end Exhausted

/-! ## Expressions from a seed -/

namespace Grammar.IsDrawable

variable {g : Grammar Float} {depth : Nat}

theorem exists_compile (hg : g.IsDrawable) (hdepth : 1 ≤ depth) (seed : String) :
    ∃ text, g.synthesizeFromSeed depth seed = .ok text ∧
      ∃ program : Program Float32, Program.compile text = .ok program := by
  obtain ⟨t, s', ht, htext⟩ := g.exists_synthesizeFromSeed depth seed
  have hcolour := ht.isColour hg g.choosesPositive_of_inUnit (by omega) (allDraws_inUnit_mulberry _)
  exact ⟨_, htext, hcolour.exists_compile fun _ => readsNumber_literal⟩

theorem exists_rootFault (hg : g.IsDrawable) (seed : String) :
    ∃ e : Expr Float, g.synthesizeFromSeed 0 seed = .ok (e.text literal) ∧
      (Program.compile (e.text literal) : Except _ (Program Float32)) = .error (rootFault e) := by
  obtain ⟨t, s', ht, htext⟩ := g.exists_synthesizeFromSeed 0 seed
  have hscalar := ht.isScalar_of_exhausted hg g.choosesPositive_of_inUnit le_rfl
    (allDraws_inUnit_mulberry _)
  exact ⟨t.expr, htext, hscalar.compile_eq_error fun _ => readsNumber_literal⟩

end Grammar.IsDrawable

/-! ## Images -/

namespace Render

/-- An image has the size of a canvas. -/
structure Image.HasSize (image : Image) (size : Size) : Prop where
  width_eq : image.width = size.width
  height_eq : image.height = size.height
  rows : image.rows.length = size.height
  row : ∀ row ∈ image.rows, row.length = size.width

theorem Program.hasSize_draw {ν : Type} [Scalar ν] (p : Program ν) (scale : ν) (size : Size) :
    (p.draw scale size.width size.height).HasSize size := by
  refine ⟨rfl, rfl, by simp [draw], ?_⟩
  unfold draw
  rw [List.forall_mem_map]
  intro row _
  rw [List.length_map, List.length_range]

theorem render_of_hasPixels {ν : Type} [Scalar ν] {size : Size} (h : size.HasPixels)
    (text : String) (scale : ν) :
    render text scale size.width size.height =
      (Program.compile text).map fun p => p.draw scale size.width size.height := by
  unfold render
  rw [if_neg (not_or.2 ⟨h.1.ne', h.2.ne'⟩)]
  cases (Program.compile text : Except _ (Program ν)) <;> rfl

end Render

/-- The software backend compiles what an accepted picture synthesizes, and draws it. -/
theorem Engine.generate_software {e : Engine Float} {size : Size} {o : Options}
    (h : e.Accepts size o) :
    ∃ g ∈ e.registry.grammars, g.name = o.grammar ∧
      ∀ text, g.synthesizeFromSeed o.depth o.seed = .ok text →
        (e.generate softwareBackend () size o).result =
          ((Program.compile text).map fun p =>
            p.draw o.scale size.width size.height).mapError .backend := by
  obtain ⟨g, hg, hname, hget⟩ := Registry.exists_get (ε := SoftwareFault) h.registered
  refine ⟨g, hg, hname, fun text htext => ?_⟩
  obtain ⟨notices, hshader⟩ := shader_of_get hget htext
  rw [generate_of_accepts h hshader, ← render_of_hasPixels h.pixels]
  rfl

/-! ## Pictures of the library -/

section Library

variable {size : Size} {o : Options}

theorem exists_drawStandard_software (hname : o.grammar ∈ Builtin.names) (hscale : o.HasScale)
    (hpixels : size.HasPixels) :
    ∃ g : Grammar Float, g.IsDrawable ∧
      ∀ text, g.synthesizeFromSeed o.depth o.seed = .ok text →
        (drawStandard (α := Float) softwareBackend () size o).result =
          ((Program.compile text).map fun p =>
            p.draw o.scale size.width size.height).mapError .backend := by
  obtain ⟨registry, hstandard, -, hnames, hdrawable⟩ := Registry.exists_standard
  have haccepts : (⟨registry, Glsl.template⟩ : Engine Float).Accepts size o :=
    ⟨hpixels, hscale, Registry.contains_iff.2 (hnames ▸ hname)⟩
  obtain ⟨g, hg, -, hresult⟩ := Engine.generate_software haccepts
  refine ⟨g, hdrawable g hg, fun text htext => ?_⟩
  rw [drawStandard_of_standard (hstandard SoftwareFault), hresult text htext]

theorem drawStandard_software_of_pos (hname : o.grammar ∈ Builtin.names) (hscale : o.HasScale)
    (hpixels : size.HasPixels) (hdepth : 1 ≤ o.depth) :
    ∃ image, (drawStandard (α := Float) softwareBackend () size o).result = .ok image ∧
      image.HasSize size := by
  obtain ⟨g, hg, hresult⟩ := exists_drawStandard_software hname hscale hpixels
  obtain ⟨text, htext, program, hprogram⟩ := hg.exists_compile hdepth o.seed
  refine ⟨_, ?_, program.hasSize_draw o.scale size⟩
  rw [hresult text htext, hprogram]
  rfl

/-- Without depth the root is no colour, whatever the seed. -/
theorem drawStandard_software_of_zero (hname : o.grammar ∈ Builtin.names) (hscale : o.HasScale)
    (hpixels : size.HasPixels) (hdepth : o.depth = 0) :
    ∃ e : Expr Float, (drawStandard (α := Float) softwareBackend () size o).result =
      .error (.backend (rootFault e)) := by
  obtain ⟨g, hg, hresult⟩ := exists_drawStandard_software hname hscale hpixels
  obtain ⟨e, htext, hfault⟩ := hg.exists_rootFault o.seed
  refine ⟨e, ?_⟩
  rw [hresult _ (hdepth ▸ htext), hfault]
  rfl

/-- A picture of a grammar of the library that passes the checks of canvas and options is drawn if
it has depth. If its depth is zero, it fails because its root is no colour. -/
theorem drawStandard_software (hname : o.grammar ∈ Builtin.names) (hcheck : o.check = .ok ())
    (hwidth : 1 ≤ size.width) (hheight : 1 ≤ size.height) :
    (1 ≤ o.depth → ∃ image,
        (drawStandard (α := Float) softwareBackend () size o).result = .ok image ∧
          image.HasSize size) ∧
      (o.depth = 0 → ∃ cause,
        (drawStandard (α := Float) softwareBackend () size o).result = .error (.backend cause) ∧
          (cause = .numberAtRoot ∨ ∃ name, cause = .scalarAtRoot name)) := by
  have hscale := Options.hasScale_of_check hcheck
  refine ⟨drawStandard_software_of_pos hname hscale ⟨hwidth, hheight⟩, fun hdepth => ?_⟩
  obtain ⟨e, hresult⟩ := drawStandard_software_of_zero hname hscale ⟨hwidth, hheight⟩ hdepth
  refine ⟨rootFault e, hresult, ?_⟩
  cases e with
  | number => exact .inl rfl
  | call name => exact .inr ⟨name, rfl⟩

/-- The default depth, and the depth of zero. -/
theorem drawStandard_software_art :
    (∃ image, (drawStandard (α := Float) softwareBackend () ⟨4, 3⟩ { seed := "art" }).result =
        .ok image ∧ image.HasSize ⟨4, 3⟩) ∧
      ∃ cause, (drawStandard (α := Float) softwareBackend () ⟨4, 3⟩
        { seed := "art", grammar := "oswald", depth := 0 }).result = .error (.backend cause) ∧
          (cause = .numberAtRoot ∨ ∃ name, cause = .scalarAtRoot name) := by
  have hcheck : ({ seed := "art" } : Options).check = .ok () :=
    Options.check_of_hasScale ⟨by decide +kernel, by decide +kernel⟩
  exact ⟨(drawStandard_software (by decide) hcheck (by decide) (by decide)).1 (by decide),
    (drawStandard_software (o := { seed := "art", grammar := "oswald", depth := 0 }) (by decide)
      hcheck (by decide) (by decide)).2 rfl⟩

/-- Whether a seed synthesizes a text. -/
def saysFromSeed (g : Grammar Float) (depth : Nat) (seed text : String) : Bool :=
  match g.synthesizeFromSeed depth seed with
  | .ok found => found == text
  | .error _ => false

theorem synthesizeFromSeed_of_saysFromSeed {g : Grammar Float} {depth : Nat} {seed text : String}
    (h : saysFromSeed g depth seed text = true) : g.synthesizeFromSeed depth seed = .ok text := by
  unfold saysFromSeed at h
  split at h
  next found hfound => rw [hfound, beq_iff_eq.1 h]
  next => cases h

/-- Options that pass the check, for a canvas of one pixel, whose picture is not drawn. -/
theorem drawStandard_software_exhausted :
    ({ seed := "art", depth := 0 } : Options).grammar ∈ Builtin.names ∧
      ({ seed := "art", depth := 0 } : Options).check = .ok () ∧
      (drawStandard (α := Float) softwareBackend () ⟨1, 1⟩ { seed := "art", depth := 0 }).result =
        .error (.backend (.scalarAtRoot "get_x")) := by
  have hscale : ({ seed := "art", depth := 0 } : Options).HasScale :=
    ⟨by decide +kernel, by decide +kernel⟩
  refine ⟨by decide, Options.check_of_hasScale hscale, ?_⟩
  obtain ⟨registry, hstandard, hall, hnames, -⟩ := Registry.exists_standard
  have haccepts : (⟨registry, Glsl.template⟩ : Engine Float).Accepts ⟨1, 1⟩
      { seed := "art", depth := 0 } := by
    refine ⟨⟨by decide, by decide⟩, hscale, Registry.contains_iff.2 ?_⟩
    rw [hnames]
    decide
  -- the text of this seed is computed for whichever grammar of the registry has the name
  have htexts : (match Builtin.all (α := Float) with
      | .ok gs => gs.all fun g => g.name != "perrig" || saysFromSeed g 0 "art" "get_x()"
      | .error _ => false) = true := by
    decide +kernel
  rw [hall] at htexts
  obtain ⟨g, hg, hname, hresult⟩ := Engine.generate_software haccepts
  have htext : g.synthesizeFromSeed 0 "art" = .ok "get_x()" := by
    have hsays := List.all_eq_true.1 htexts g hg
    rw [hname, bne_self_eq_false, Bool.false_or] at hsays
    exact synthesizeFromSeed_of_saysFromSeed hsays
  have hroot : IsScalar InUnit (.call "get_x" [] : Expr Float) :=
    .call (f := .x) rfl (by decide) rfl (by simp)
  have hfault : (Program.compile "get_x()" : Except _ (Program Float32)) =
      .error (.scalarAtRoot "get_x") := hroot.compile_eq_error fun _ => readsNumber_literal
  rw [drawStandard_of_standard (hstandard SoftwareFault), hresult _ htext, hfault]
  rfl

end Library

end SeededArt
