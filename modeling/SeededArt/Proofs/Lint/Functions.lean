import SeededArt.Lint.Checks
import SeededArt.Proofs.Synthesis.RoundTrip
/-!
# Functions that the template does not define

The names that a grammar emits are those of its alternatives, the constants excepted
(`Grammar.mem_emitNames`). An expansion makes a call of such an alternative only, at every node, so
it calls emitted functions only (`Expands.emits`). The errors of a report are the emitted names that
the template does not define, each once (`withSeverity_error_check`): without errors, every function
of every synthesized expression is defined (`check_errors_exact`).
-/

namespace SeededArt

open Arithmetic SeededArt.Random

/-! ## Calls -/

namespace Expr

variable {ν μ : Type} {name function : String} {arguments : List (Expr ν)}

/-- The functions that an expression calls, a call before those inside its arguments. -/
def calls : Expr ν → List String
  | number _ => []
  | call function arguments => function :: arguments.flatMap fun e => e.calls

@[simp] theorem calls_number (value : ν) : (number value).calls = [] := by
  rw [calls]

@[simp] theorem mem_calls_call :
    name ∈ (call function arguments).calls ↔ name = function ∨ ∃ e ∈ arguments, name ∈ e.calls := by
  rw [calls, List.mem_cons, List.mem_flatMap]

/-- Numbers are no calls, so replacing them changes none. -/
theorem calls_map (f : ν → μ) (e : Expr ν) : (e.map f).calls = e.calls := by
  induction e using Expr.map.induct with
  | case1 value => rw [map, calls, calls]
  | case2 function arguments ih =>
    rw [map, calls, calls, List.flatMap_map]
    congr 1
    exact List.flatMap_congr ih

end Expr

namespace Grammar

variable {σ α : Type} [Arithmetic α] [Source σ α] {g : Grammar α} {name symbol : String}
  {symbols : List String} {depth : Int} {s s₁ s' : σ} {rule : Rule α} {a : Alternative α}
  {ts : List (Derivation α)}

/-- Some alternative that is no constant calls a function. -/
def Emits (g : Grammar α) (name : String) : Prop :=
  ∃ r ∈ g.rules, ∃ a ∈ r.alternatives, a.isConstant = false ∧ a.emit = name

theorem mem_emitNames : name ∈ g.emitNames ↔ g.Emits name := by
  unfold emitNames Emits
  simp only [Text.mem_nameSet, List.mem_map, List.mem_filter, List.mem_flatMap, Bool.not_eq_true']
  constructor
  · rintro ⟨a, ⟨⟨r, hr, ha⟩, hconst⟩, hname⟩
    exact ⟨r, hr, a, ha, hconst, hname⟩
  · rintro ⟨r, hr, a, ha, hconst, hname⟩
    exact ⟨a, ⟨⟨r, hr, ha⟩, hconst⟩, hname⟩

theorem emits_of_pick (hrule : g.rule? symbol = some rule)
    (hpick : pick (·.weight) (g.ruleAtDepth rule depth).alternatives s = .ok a s₁)
    (hconst : a.isConstant = false) : g.Emits a.emit :=
  ⟨_, ruleAtDepth_mem (mem_of_rule? hrule), a, mem_of_pick hpick, hconst, rfl⟩

/-- Whatever an expansion calls, the grammar emits. -/
theorem Expands.emits (h : g.Expands symbols depth s ts s') :
    ∀ t ∈ ts, ∀ name ∈ t.expr.calls, g.Emits name := by
  induction h with
  | nil => simp
  | constant _ _ _ _ ih =>
    rw [List.forall_mem_cons, Derivation.expr_constant]
    exact ⟨by simp, ih⟩
  | leaf hrule hpick _ hconst _ ih =>
    rw [List.forall_mem_cons, Derivation.expr_node]
    refine ⟨fun name hname => ?_, ih⟩
    rw [List.map_nil, Expr.mem_calls_call] at hname
    obtain rfl | ⟨e, he, -⟩ := hname
    · exact emits_of_pick hrule hpick hconst
    · cases he
  | composite hrule hpick hterm _ _ _ ihargs ih =>
    rw [List.forall_mem_cons, Derivation.expr_node]
    refine ⟨fun name hname => ?_, ih⟩
    rw [Expr.mem_calls_call] at hname
    obtain rfl | ⟨e, he, hname⟩ := hname
    · exact emits_of_pick hrule hpick (by rw [Alternative.isConstant, hterm, Bool.false_and])
    · obtain ⟨t, ht, rfl⟩ := List.mem_map.1 he
      exact ihargs t ht name hname

end Grammar

/-! ## Findings -/

namespace Lint

section Findings

variable {α : Type} [Arithmetic α] {g : Grammar α} {t : Template} {name : String}

def missingFunction (g : Grammar α) (name : String) : Diagnostic :=
  { severity := .error
    code := .missingFunction
    message := s!"Grammar {g.name} emits {name}() but the fragment template does not define it"
    help := some ("Add a `" ++ name ++ "` function to the fragment template") }

/-- The functions that a grammar emits and a template does not define. -/
def missingNames (g : Grammar α) (t : Template) : List String :=
  g.emitNames.filter fun name => !t.definesFunction name

theorem checkFunctions_eq (g : Grammar α) (t : Template) :
    checkFunctions g t = (missingNames g t).map (missingFunction g) := rfl

theorem mem_missingNames :
    name ∈ missingNames g t ↔ t.definesFunction name = false ∧ g.Emits name := by
  unfold missingNames
  rw [List.mem_filter, Grammar.mem_emitNames, Bool.not_eq_true', and_comm]

theorem nodup_missingNames (g : Grammar α) (t : Template) : (missingNames g t).Nodup := by
  refine ((Text.pairwise_nameSet _).imp ?_).filter _
  rintro x y hxy rfl
  exact Text.Precedes.irrefl x hxy

theorem of_mem_otherFindings {d : Diagnostic} (hd : d ∈ checkReachability g ++ checkWeights g) :
    d.severity = .warning ∧ d.code ≠ .missingFunction := by
  unfold checkReachability checkWeights at hd
  rcases List.mem_append.1 hd with hd | hd
  · obtain ⟨name, -, rfl⟩ := List.mem_map.1 hd
    exact ⟨rfl, Code.noConfusion⟩
  · obtain ⟨r, -, hd⟩ := List.mem_flatMap.1 hd
    obtain ⟨a, -, rfl⟩ := List.mem_map.1 hd
    exact ⟨rfl, Code.noConfusion⟩

/-- What tells missing functions from warnings of other kinds selects them from a report. -/
theorem filter_check {p : Diagnostic → Bool} (hmissing : ∀ name, p (missingFunction g name) = true)
    (hothers : ∀ d : Diagnostic, d.severity = .warning → d.code ≠ .missingFunction → ¬p d = true) :
    (check g t).diagnostics.filter p = (missingNames g t).map (missingFunction g) := by
  have hwarnings : ∀ d ∈ checkReachability g ++ checkWeights g, ¬p d = true := by
    intro d hd
    obtain ⟨hseverity, hcode⟩ := of_mem_otherFindings hd
    exact hothers d hseverity hcode
  have herrors : ∀ d ∈ checkFunctions g t, p d = true := by
    rw [checkFunctions_eq, List.forall_mem_map]
    exact fun name _ => hmissing name
  unfold check
  rw [List.append_assoc, List.filter_append, List.filter_eq_self.2 herrors,
    List.filter_eq_nil_iff.2 hwarnings, List.append_nil, checkFunctions_eq]

/-- Only a missing function is an error. -/
theorem withSeverity_error_check (g : Grammar α) (t : Template) :
    (check g t).withSeverity .error = (missingNames g t).map (missingFunction g) := by
  refine filter_check (fun _ => rfl) fun d hseverity _ => ?_
  rw [hseverity]
  decide

theorem withCode_missingFunction_check (g : Grammar α) (t : Template) :
    (check g t).withCode .missingFunction = (missingNames g t).map (missingFunction g) := by
  refine filter_check (fun _ => rfl) fun d _ hcode => ?_
  rwa [decide_eq_true_iff]

theorem hasErrors_eq_false_iff : (check g t).hasErrors = false ↔ missingNames g t = [] := by
  unfold Report.hasErrors
  rw [withSeverity_error_check, Bool.not_eq_false', List.isEmpty_iff, List.map_eq_nil_iff]

theorem definesFunction_of_emits (herrors : (check g t).hasErrors = false) (hname : g.Emits name) :
    t.definesFunction name = true := by
  by_contra hmissing
  have hmem : name ∈ missingNames g t := mem_missingNames.2 ⟨by simpa using hmissing, hname⟩
  rw [hasErrors_eq_false_iff.1 herrors] at hmem
  exact List.not_mem_nil hmem

end Findings

/-- If the report of a grammar and a template has no errors, then every symbol that names a rule
synthesizes, with draws of the unit interval, an expression all of whose functions are emitted by
the grammar and defined by the template. If functions have identifiers for names, these are the
functions that are read in its text. The errors are, once each, the functions that an alternative
other than a constant calls and the template does not define. -/
theorem check_errors_exact (g : Grammar Float) (t : Template) :
    ((check g t).hasErrors = false → ∀ {σ : Type} [Source σ Float] (symbol : String) (depth : Int)
        (s : σ), g.has symbol = true → AllDraws (InUnit (α := Float)) s →
      ∃ e s', g.derive symbol depth s = .ok e s' ∧
        g.synthesize symbol depth s = .ok (e.text literal) s' ∧
        (∀ name ∈ e.calls, name ∈ g.emitNames ∧ t.definesFunction name = true) ∧
        (g.NamesAreIdentifiers →
          ∃ read, Expr.parse (e.text literal) = .ok read ∧ read.calls = e.calls)) ∧
    ∃ names : List String, names.Nodup ∧
      (∀ name, name ∈ names ↔ t.definesFunction name = false ∧
        ∃ r ∈ g.rules, ∃ a ∈ r.alternatives, a.isConstant = false ∧ a.emit = name) ∧
      (check g t).withSeverity .error = names.map (missingFunction g) := by
  refine ⟨fun herrors σ _ symbol depth s hsymbol hs => ?_, missingNames g t,
    nodup_missingNames g t, fun name => mem_missingNames, withSeverity_error_check g t⟩
  have hP := g.picksPositive_of_inUnit_float
  obtain ⟨u, s', hu⟩ := Grammar.exists_expands_singleton hP hs hsymbol depth
  have hsynth := hu.synthesize hP hs
  obtain ⟨u', hu', -, hheight⟩ := Grammar.synthesize_eq_ok_iff.1 hsynth
  obtain ⟨rfl, -⟩ : u' = u ∧ s' = s' := by simpa using hu.unique hu'
  refine ⟨u'.expr, s', Grammar.expand_eq_ok_iff.2 ⟨u', hu, rfl, hheight⟩, hsynth, ?_, ?_⟩
  · intro name hname
    have hemits := hu.emits u' List.mem_cons_self name hname
    exact ⟨Grammar.mem_emitNames.2 hemits, definesFunction_of_emits herrors hemits⟩
  · intro hnames
    have hread := hu.readable hnames hs u' List.mem_cons_self
    exact ⟨_, hread.parse_text, Expr.calls_map _ _⟩

/-- Rules that mix a constant with calls. A composite alternative is none, whatever its name. -/
def mixedRules : List (Rule Float) :=
  [⟨"A", [⟨"a", [], 0.5, "get_a"⟩, ⟨"x", [], 0.5, "get_x"⟩]⟩,
    ⟨"E", [⟨"a", ["A"], 0.5, "f"⟩, ⟨"f", ["E", "A"], 0.25, "f"⟩, ⟨"x", [], 0.25, "get_x"⟩]⟩]

/-- A template that defines the two functions of these rules. -/
def mixedTemplate : Template :=
  ⟨"", "float get_x() \x7b\nfloat f(float a) \x7b\nHERE", "HERE"⟩

/-- The constant has an undefined function for a name, but is no call. -/
theorem check_errors_mixed :
    ∃ g : Grammar Float, Builtin.assemble "mixed" mixedRules = .ok g ∧
      (check g mixedTemplate).hasErrors = false ∧ mixedTemplate.definesFunction "get_a" = false ∧
      g.has "E" = true ∧ AllDraws (InUnit (α := Float)) (Mulberry.ofSeed "art") ∧
      ∃ (e : Expr Float) (s' : Mulberry),
        g.synthesize "E" 4 (Mulberry.ofSeed "art") = .ok (e.text literal) s' ∧
          ∀ name ∈ e.calls, name ∈ g.emitNames ∧ mixedTemplate.definesFunction name = true := by
  have hcheck : Builtin.assembles (fun g : Grammar Float =>
      decide (missingNames g mixedTemplate = []) && g.has "E") "mixed" mixedRules = true := by
    decide +kernel
  obtain ⟨g, hg, hcheck⟩ := Builtin.exists_assemble hcheck
  rw [Bool.and_eq_true, decide_eq_true_iff, ← hasErrors_eq_false_iff] at hcheck
  obtain ⟨herrors, hsymbol⟩ := hcheck
  have hunit : AllDraws (InUnit (α := Float)) (Mulberry.ofSeed "art") :=
    allDraws_inUnit_mulberry _
  obtain ⟨e, s', -, hsynth, hcalls, -⟩ :=
    (check_errors_exact g mixedTemplate).1 herrors "E" 4 _ hsymbol hunit
  exact ⟨g, hg, herrors, by decide +kernel, hsymbol, hunit, e, s', hsynth, hcalls⟩

end Lint

end SeededArt
