import SeededArt.Registry
import SeededArt.Render.Image
import SeededArt.Render.Pool
import SeededArt.Shader.Glsl
/-!
# From a seed to a picture

An engine joins a registry of grammars with a shader template. A picture takes five steps, and the
first that fails ends it: the size of the canvas is checked, the scale is checked, the grammar is
looked up, the expression is synthesized and put into the template, and only then the backend
draws. A backend is a state and a function that draws with it.
-/

namespace SeededArt

open Render

variable {α β δ ε ι τ : Type} [Arithmetic α]

/-- What the library announces while it works. -/
inductive Notice where
  /-- An expression was synthesized for options that ask to announce it. -/
  | expression (grammar seed : String) (depth : Nat) (expression : String)
  /-- A context was dropped because its size keeps no further one. -/
  | poolFull (size : Size)
deriving DecidableEq, Repr

namespace Notice

/-- Whether a notice warns of something; the others inform. -/
def isWarning : Notice → Bool
  | expression .. => false
  | poolFull _ => true

def message : Notice → String
  | expression .. => "randomart expression"
  | poolFull _ => "context pool full, dropping context"

/-- The values that go with a notice, by their names. -/
def fields : Notice → List (String × String)
  | expression grammar seed depth text =>
    [("grammar", grammar), ("seed", seed), ("depth", toString depth), ("expression", text)]
  | poolFull size => [("width", toString size.width), ("height", toString size.height)]

end Notice

/-- What a backend draws: a shader on a canvas. -/
structure Request where
  shader : Shader
  size : Size
  scale : Float32

/-- A backend with state `β`, images `ι` and errors `ε`. -/
structure Backend (β ι ε : Type) where
  draw : Request → β → Except ε ι × β

/-- The backend that draws by evaluating the expression. -/
def softwareBackend : Backend Unit Image SoftwareFault where
  draw request state :=
    (render request.shader.expression request.scale request.size.width request.size.height, state)

/-- A registry and the template that expressions are put into. -/
structure Engine (α : Type) [Arithmetic α] where
  registry : Registry α
  template : Template := Glsl.template

/-- Refuses a canvas without pixels. -/
def checkSize (size : Size) : Except InputFault Unit :=
  if size.width = 0 ∨ size.height = 0 then .error (.emptyCanvas size.width size.height) else .ok ()

/-- What happened to a picture: the image or the error, the state of the backend, and notices. -/
structure Outcome (α β ε ι : Type) where
  result : Except (Error α ε) ι
  backend : β
  notices : List Notice

/-- What happened to a picture that a pool was asked for. -/
structure PooledOutcome (α β ε ι τ : Type) where
  result : Except (Error α ε) ι
  pool : Pool β
  /-- The state of what creates contexts. -/
  creator : τ
  notices : List Notice

namespace Engine

/-- The expression of options, with the notices about it. -/
def expression (e : Engine α) (o : Options) : Except (Error α ε) (String × List Notice) := do
  let g ← e.registry.get o.grammar
  match g.synthesizeFromSeed o.depth o.seed with
  | .error cause => throw (.synthesis cause)
  | .ok text => return (text, if o.debug then [.expression g.name o.seed o.depth text] else [])

def shader (e : Engine α) (o : Options) : Except (Error α ε) (Shader × List Notice) := do
  let (text, notices) ← e.expression o
  return (e.template.emit text, notices)

/-- Every step before the backend. -/
def prepare (e : Engine α) (size : Size) (o : Options) :
    Except (Error α ε) (Shader × List Notice) := do
  match checkSize size with
  | .error cause => throw (.input cause)
  | .ok () =>
    match o.check with
    | .error cause => throw (.input cause)
    | .ok () => e.shader o

def drawWith (b : Backend β ι ε) (shader : Shader) (size : Size) (o : Options) (state : β) :
    Except (Error α ε) ι × β :=
  match b.draw ⟨shader, size, o.scale⟩ state with
  | (.ok image, state) => (.ok image, state)
  | (.error cause, state) => (.error (.backend cause), state)

def generate (e : Engine α) (b : Backend β ι ε) (state : β) (size : Size) (o : Options) :
    Outcome α β ε ι :=
  match e.prepare size o with
  | .error error => ⟨.error error, state, []⟩
  | .ok (shader, notices) =>
    let (result, state) := drawWith b shader size o state
    ⟨result, state, notices⟩

/-- Draws options with a backend from a pool, which is created if none of the size is idle. The
backend goes back to the pool whether or not it could draw. An error of `create` is told, by `box`,
like one of the backend. -/
def generatePooled (e : Engine α) (b : Backend β ι ε) (create : Size → τ → Except δ β × τ)
    (pool : Pool β) (creator : τ) (size : Size) (o : Options) (box : δ → ε := by exact id) :
    PooledOutcome α β ε ι τ :=
  match e.prepare size o with
  | .error error => ⟨.error error, pool, creator, []⟩
  | .ok (shader, notices) =>
    match pool.acquire create size creator with
    | (.error cause, pool, creator) => ⟨.error (.backend (box cause)), pool, creator, notices⟩
    | (.ok state, pool, creator) =>
      let (result, state) := drawWith b shader size o state
      let dropped := if pool.isFull size then [.poolFull size] else []
      ⟨result, pool.release size state, creator, notices ++ dropped⟩

/-- The engine over the grammars of the library and the default template. -/
def standard : Except (Error α ε) (Engine α) := return { registry := ← Registry.standard }

end Engine

/-- Draws options with the grammars of the library and the default template. -/
def drawStandard (b : Backend β ι ε) (state : β) (size : Size) (o : Options) : Outcome α β ε ι :=
  match Engine.standard (α := α) with
  | .error error => ⟨.error error, state, []⟩
  | .ok e => e.generate b state size o

end SeededArt
