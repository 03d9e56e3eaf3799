import SeededArt.Proofs.Engine.Software
import SeededArt.Proofs.Lint.Functions
import SeededArt.Proofs.Render.Faults
import SeededArt.Proofs.Shader.Definitions
/-!
# Functions that the evaluator does not know

The default template defines the functions that the evaluator knows, and the main function. So if
no function of a grammar is missing from the template, its expressions compile without an unknown
function, unless they call the main function; and if the evaluator knows all functions of a grammar,
none is missing (`check_template_agrees`). A grammar that emits the main function passes the check,
but its expressions do not compile (`check_template_main`).
-/

namespace SeededArt

open Arithmetic SeededArt.Random Render

namespace Grammar

variable {g : Grammar Float}

/-- Every symbol that names a rule synthesizes a text that reads back and calls what is emitted. -/
theorem exists_parse_calls (hnames : g.NamesAreIdentifiers) {σ : Type} [Source σ Float]
    {symbol : String} {s : σ} (hsymbol : g.has symbol = true)
    (hs : AllDraws (InUnit (α := Float)) s) (depth : Int) :
    ∃ text s' e, g.synthesize symbol depth s = .ok text s' ∧ Expr.parse text = .ok e ∧
      ∀ name ∈ e.calls, g.Emits name := by
  have hP := g.picksPositive_of_inUnit_float
  obtain ⟨t, s', ht⟩ := exists_expands_singleton hP hs hsymbol depth
  have hread := ht.readable hnames hs t List.mem_cons_self
  refine ⟨_, s', _, ht.synthesize hP hs, hread.parse_text, fun name hname => ?_⟩
  rw [Expr.calls_map] at hname
  exact ht.emits t List.mem_cons_self name hname

end Grammar

namespace Lint

section Agreement

variable {g : Grammar Float} {name : String}

/-- No function is reported as missing exactly if the evaluator knows every function that the
grammar emits, the main function apart. -/
theorem withCode_missingFunction_template_iff :
    (check g Glsl.template).withCode .missingFunction = [] ↔
      ∀ name, g.Emits name → (Function.ofName? name).isSome = true ∨ name = "main" := by
  rw [withCode_missingFunction_check, List.map_eq_nil_iff, List.eq_nil_iff_forall_not_mem]
  simp only [mem_missingNames, ← Glsl.definesFunction_template_iff, not_and', Bool.not_eq_false]

theorem namesAreIdentifiers_of_known
    (h : ∀ name, g.Emits name → (Function.ofName? name).isSome = true ∨ name = "main") :
    g.NamesAreIdentifiers := by
  intro r hr a ha hconst
  rcases h a.emit ⟨r, hr, a, ha, hconst, rfl⟩ with hknown | hmain
  · obtain ⟨f, hf⟩ := Option.isSome_iff_exists.1 hknown
    exact Function.isIdentifier_of_ofName? hf
  · rw [hmain]
    decide

end Agreement

/-- The default template defines exactly the functions that the evaluator knows, and the main
function. If a grammar misses none of its functions in the template, then every symbol that names a
rule synthesizes, with draws of the unit interval, a text in which compiling finds no unknown
function but the main one, and this only if the grammar emits it. If the evaluator knows all
functions that a grammar emits, none is missing. -/
theorem check_template_agrees :
    (∀ name, Glsl.template.definesFunction name = true ↔
        (Function.ofName? name).isSome = true ∨ name = "main") ∧
      (∀ g : Grammar Float, (check g Glsl.template).withCode .missingFunction = [] →
        ∀ {σ ν : Type} [Source σ Float] [Scalar ν] (symbol : String) (depth : Int) (s : σ),
          g.has symbol = true → AllDraws (InUnit (α := Float)) s →
          ∃ text s', g.synthesize symbol depth s = .ok text s' ∧
            ∀ name, (Program.compile text : Except _ (Program ν)) =
              .error (.unknownFunction name) → name = "main" ∧ "main" ∈ g.emitNames) ∧
      ∀ g : Grammar Float, (∀ name ∈ g.emitNames, (Function.ofName? name).isSome = true) →
        (check g Glsl.template).withCode .missingFunction = [] := by
  refine ⟨fun name => Glsl.definesFunction_template_iff, fun g hclean => ?_, fun g hknown => ?_⟩
  · intro σ ν _ _ symbol depth s hsymbol hs
    have hknown := withCode_missingFunction_template_iff.1 hclean
    obtain ⟨text, s', e, hsynth, hparse, hcalls⟩ :=
      Grammar.exists_parse_calls (namesAreIdentifiers_of_known hknown) hsymbol hs depth
    refine ⟨text, s', hsynth, fun name hfault => ?_⟩
    obtain ⟨hunknown, hname⟩ := Program.mem_calls_of_compile hparse hfault
    have hemits := hcalls name hname
    obtain rfl : name = "main" := (hknown name hemits).resolve_left (by simp [hunknown])
    exact ⟨rfl, Grammar.mem_emitNames.2 hemits⟩
  · refine withCode_missingFunction_template_iff.2 fun name hemits => .inl ?_
    exact hknown name (Grammar.mem_emitNames.2 hemits)

/-- A grammar of the library, drawn by a generator. -/
theorem check_template_perrig :
    ∃ g : Grammar Float, Builtin.assemble "perrig" Builtin.perrigRules = .ok g ∧
      (∀ name ∈ g.emitNames, (Function.ofName? name).isSome = true) ∧
      (check g Glsl.template).withCode .missingFunction = [] ∧ g.has "E" = true ∧
      AllDraws (InUnit (α := Float)) (Mulberry.ofSeed "art") ∧
      ∃ (text : String) (s' : Mulberry), g.synthesize "E" 4 (Mulberry.ofSeed "art") = .ok text s' ∧
        ∀ name, (Program.compile text : Except _ (Program Float32)) =
          .error (.unknownFunction name) → name = "main" ∧ "main" ∈ g.emitNames := by
  have hcheck : Builtin.assembles (fun g : Grammar Float =>
      decide (∀ name ∈ g.emitNames, (Function.ofName? name).isSome = true) && g.has "E") "perrig"
        Builtin.perrigRules = true := by
    decide +kernel
  obtain ⟨g, hg, hcheck⟩ := Builtin.exists_assemble hcheck
  rw [Bool.and_eq_true, decide_eq_true_iff] at hcheck
  obtain ⟨hknown, hsymbol⟩ := hcheck
  obtain ⟨-, hsound, hcomplete⟩ := check_template_agrees
  have hclean := hcomplete g hknown
  have hunit : AllDraws (InUnit (α := Float)) (Mulberry.ofSeed "art") := allDraws_inUnit_mulberry _
  exact ⟨g, hg, hknown, hclean, hsymbol, hunit, hsound g hclean "E" 4 _ hsymbol hunit⟩

/-- Rules whose leaf calls the main function. -/
def mainRules : List (Rule Float) :=
  [⟨"A", [⟨"x", [], 1.0, "main"⟩]⟩, ⟨"E", [⟨"E", ["A", "A", "A"], 1.0, "E"⟩]⟩]

/-- The template defines the main function, so it is not missing, but the evaluator does not know
it. -/
theorem check_template_main :
    Glsl.template.definesFunction "main" = true ∧ Function.ofName? "main" = none ∧
      ∃ g : Grammar Float, Builtin.assemble "entry" mainRules = .ok g ∧
        (check g Glsl.template).withCode .missingFunction = [] ∧
        g.synthesizeFromSeed 1 "art" = .ok "E(main(), main(), main())" ∧
        (Program.compile "E(main(), main(), main())" : Except _ (Program Float32)) =
          .error (.unknownFunction "main") := by
  have hcheck : Builtin.assembles (fun g : Grammar Float =>
      decide (∀ name ∈ g.emitNames, (Function.ofName? name).isSome = true ∨ name = "main") &&
        saysFromSeed g 1 "art" "E(main(), main(), main())") "entry" mainRules = true := by
    decide +kernel
  obtain ⟨g, hg, hcheck⟩ := Builtin.exists_assemble hcheck
  rw [Bool.and_eq_true, decide_eq_true_iff] at hcheck
  obtain ⟨hknown, htext⟩ := hcheck
  have hclean : (check g Glsl.template).withCode .missingFunction = [] := by
    refine withCode_missingFunction_template_iff.2 fun name hemits => ?_
    exact hknown name (Grammar.mem_emitNames.2 hemits)
  have hparse : Expr.parse "E(main(), main(), main())" =
      .ok (.call "E" [.call "main" [], .call "main" [], .call "main" []]) := by
    decide +kernel
  refine ⟨Glsl.definesFunction_template_iff.2 (.inr rfl), rfl, g, hg, hclean,
    synthesizeFromSeed_of_saysFromSeed htext, ?_⟩
  rw [Program.compile_of_parse hparse, ← faultOf?_eq_some_iff, Program.faultOf?_ofExpr,
    firstFault?_eq, nodeFault?_root_eq_none_iff.2 ⟨_, _, _, rfl⟩, Option.none_or, Expr.parts,
    List.flatMap_cons, Expr.nodes]
  rfl

end Lint

end SeededArt
