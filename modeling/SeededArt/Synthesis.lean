import SeededArt.Grammar.Draft
import SeededArt.Sampling
import SeededArt.Expr.Basic
import SeededArt.Random.Mulberry
/-!
# Synthesis of expressions

A rule is expanded to an expression by draws from a source. With depth left, an alternative of the
rule itself is chosen, without depth one of the fallback rule. Before the arguments of a composite
alternative are expanded, the depth decays by one for each draw below one half; all arguments then
share the depth that is left, less one. So the expression has at most `max depth 0 + 1` levels as
long as the draws lie in `[0, 1)`: a composite alternative of the fallback rule has weight zero and
is never chosen by such a draw.

Depths are integers without bounds. All that is done with them is to compare them with zero and to
lower them by one. With draws in `[0, 1)` only positive depths are lowered, to `-2` at the least, so
depths stay 64-bit words whatever word the first one is: `Grammar.expandChecked` is the same
expansion with words.
-/

namespace SeededArt

open SeededArt.Random

/-- Why an expansion has no expression. -/
inductive SynthesisFault (α : Type) where
  | unknownRule (rule grammar : String)
  | nothingChosen (cause : NothingChosen α)
  /-- More levels than the source's own bound on stray draws allows. -/
  | tooManyLevels

variable {σ α : Type} [Arithmetic α] [Source σ α]

/-- Lets the depth decay: by one for each draw below one half, until a draw is not or the depth is
below zero. `steps` counts how often it can decay. -/
def decay {ε : Type} : Nat → Int → Drawing ε σ Int
  | 0, depth => pure depth
  | steps + 1, depth => do
    let u : α ← draw
    if Arithmetic.less u 0.5 then decay steps (depth - 1) else pure depth

namespace Grammar

/-- The rule of a name, which an expansion needs. -/
def require (g : Grammar α) (name : String) : Except (SynthesisFault α) (Rule α) :=
  match g.rule? name with
  | some rule => .ok rule
  | none => .error (.unknownRule name g.name)

/-- The rule whose alternatives are chosen from: itself with depth left, else the fallback rule. -/
def ruleAtDepth (g : Grammar α) (rule : Rule α) (depth : Int) : Rule α :=
  if depth ≤ 0 then g.fallbackRule else rule

def pickAlternative (rule : Rule α) : Drawing (SynthesisFault α) σ (Alternative α) := fun s =>
  match pick (·.weight) rule.alternatives s with
  | .ok chosen s => .ok chosen s
  | .error fault s => .error (.nothingChosen fault) s

/-- Expands a rule to an expression of at most `levels` levels. -/
def expand (g : Grammar α) :
    (levels : Nat) → (symbol : String) → (depth : Int) →
      Drawing (SynthesisFault α) σ (Expr α)
  | 0, _, _ => throw .tooManyLevels
  | levels + 1, symbol, depth => do
    let rule ← match g.require symbol with
      | .ok rule => pure rule
      | .error fault => throw fault
    let chosen ← pickAlternative (g.ruleAtDepth rule depth)
    if chosen.isTerminal then
      if chosen.isConstant then return .number (← draw)
      else return .call chosen.emit []
    else
      let left ← decay (α := α) (depth + 1).toNat depth
      let arguments ← chosen.arguments.mapM fun argument => g.expand levels argument (left - 1)
      return .call chosen.emit arguments

/-- Enough levels for an expansion: each level with depth left lowers the depth, and each level
without needs a stray draw. -/
def levelBound (α : Type) [Source σ α] (depth : Int) (s : σ) : Nat :=
  depth.toNat + @Source.strays σ α _ s + 1

/-- Expands a rule to an expression. -/
def derive (g : Grammar α) (symbol : String) (depth : Int) :
    Drawing (SynthesisFault α) σ (Expr α) := fun s =>
  g.expand (levelBound α depth s) symbol depth s

/-- Expands a rule to the text of an expression. -/
def synthesize (g : Grammar α) (symbol : String) (depth : Int) :
    Drawing (SynthesisFault α) σ String := do
  return (← g.derive symbol depth).text Arithmetic.literal

/-- Expands the start rule to the text of an expression, with the generator of a seed text. -/
def synthesizeFromSeed (g : Grammar α) (depth : Nat) (seed : String) :
    Except (SynthesisFault α) String :=
  match g.synthesize g.start depth (Mulberry.ofSeed seed) with
  | .ok text _ => .ok text
  | .error fault _ => .error fault

end Grammar

end SeededArt
