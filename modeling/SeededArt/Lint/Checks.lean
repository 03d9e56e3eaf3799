import SeededArt.Grammar.Graph
import SeededArt.Lint.Diagnostic
import SeededArt.Shader.Template
/-!
# Checks of a grammar

A grammar fits together by itself; these checks look at the template it is used with and at parts
that no expansion uses: functions that the template does not define, rules that neither the start
rule nor the fallback rule leads to, and alternatives of weight zero.
-/

namespace SeededArt.Lint

variable {α : Type} [Arithmetic α]

/-- Functions that the grammar calls and the template does not define, in ascending order. -/
def checkFunctions (g : Grammar α) (t : Template) : List Diagnostic :=
  (g.emitNames.filter fun name => !t.definesFunction name).map fun name =>
    { severity := .error
      code := .missingFunction
      message := s!"Grammar {g.name} emits {name}() but the fragment template does not define it"
      help := some ("Add a `" ++ name ++ "` function to the fragment template") }

/-- The names that the start rule or the fallback rule leads to. -/
def expandable (g : Grammar α) : List String :=
  g.graph.reachable g.start ++ g.graph.reachable g.fallback

/-- Rules that no expansion uses. -/
def checkReachability (g : Grammar α) : List Diagnostic :=
  let used := expandable g
  (g.ruleNames.filter fun name => !used.contains name).map fun name =>
    { severity := .warning
      code := .unreachableRule
      message := s!"Rule {name} in grammar {g.name} is never expanded"
      help := some s!"Reference it from {g.start} or remove it" }

/-- Whether a weight is zero, of either sign. -/
def isZeroWeight (w : α) : Bool := !Arithmetic.less w 0.0 && !Arithmetic.less 0.0 w

/-- Alternatives of weight zero. -/
def checkWeights (g : Grammar α) : List Diagnostic :=
  g.rules.flatMap fun r =>
    (r.alternatives.filter fun a => isZeroWeight a.weight).map fun a =>
      { severity := .warning
        code := .zeroWeight
        message := s!"Alternative {a.name} of rule {r.name} has weight 0 and is never chosen" }

def check (g : Grammar α) (t : Template) : Report :=
  ⟨checkFunctions g t ++ checkReachability g ++ checkWeights g⟩

end SeededArt.Lint
