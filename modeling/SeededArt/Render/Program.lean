import SeededArt.Expr.Parser
import SeededArt.Render.Function
import SeededArt.Render.Scalar
/-!
# Programs

A program is a colour expression whose functions are known and have the right numbers of
arguments: one scalar tree for each channel. `Program.compile` answers the first fault in the order
in which the text calls functions.
-/

namespace SeededArt.Render

open Decimal

/-- Why the software renderer draws nothing. -/
inductive SoftwareFault where
  | parse (cause : ParseFault)
  | unknownFunction (name : String)
  | arity (name : String) (expected found : Nat)
  | numberAtRoot
  | scalarAtRoot (name : String)
  | colourInside (name : String)
  | emptyCanvas (width height : Nat)
deriving DecidableEq, Repr

def SoftwareFault.message : SoftwareFault → String
  | parse cause => "Could not parse expression: " ++ cause.message
  | unknownFunction name => s!"Unknown function {name}()"
  | arity name expected found => s!"{name}() takes {expected} argument(s), got {found}"
  | numberAtRoot => "Type mismatch: expression must produce a colour, found a number"
  | scalarAtRoot name => s!"Type mismatch: expression must produce a colour, found {name}()"
  | colourInside name =>
    s!"Type mismatch: {name}() produces a colour where a scalar is expected"
  | emptyCanvas width height => s!"Canvas must be at least 1x1, got {width}x{height}"

/-- A scalar expression over known functions. -/
inductive Node (ν : Type) where
  | constant (value : ν)
  | call (function : Function) (arguments : List (Node ν))

namespace Node

variable {ν : Type}

mutual

/-- Whether two trees are equal, constants compared as numbers. -/
def same [BEq ν] : Node ν → Node ν → Bool
  | constant a, constant b => a == b
  | call f as, call g bs => f == g && sameAll as bs
  | _, _ => false

def sameAll [BEq ν] : List (Node ν) → List (Node ν) → Bool
  | [], [] => true
  | a :: as, b :: bs => same a b && sameAll as bs
  | _, _ => false

end

/-- The function of a name, if it takes so many arguments. -/
def lookup (name : String) (found : Nat) : Except SoftwareFault Function :=
  match Function.ofName? name with
  | none => .error (.unknownFunction name)
  | some function =>
    if function.arity = found then .ok function
    else .error (.arity name function.arity found)

def ofExpr [Scalar ν] : Expr Numeral → Except SoftwareFault (Node ν)
  | .number value => .ok (.constant (Scalar.ofNumeral value))
  | .call name arguments => do
    let function ← lookup name arguments.length
    if function = .colour then throw (.colourInside name)
    return .call function (← arguments.attach.mapM fun ⟨e, _⟩ => ofExpr e)

end Node

/-- A point of the canvas in the coordinates of expressions. -/
structure Fragment (ν : Type) where
  x : ν
  y : ν

/-- The value of a function at a fragment. A missing argument counts as zero, and so does a
colour; neither occurs in a compiled program. -/
def Function.apply {ν : Type} [Scalar ν] (f : Function) (at_ : Fragment ν) (arguments : List ν) :
    ν :=
  let first := arguments[0]?.getD (Scalar.ofNat 0)
  let second := arguments[1]?.getD (Scalar.ofNat 0)
  match f with
  | x => at_.x
  | y => at_.y
  | absX => Scalar.magnitude at_.x
  | absY => Scalar.magnitude at_.y
  | distance => Scalar.hypotenuse at_.x at_.y
  | sine => Scalar.sine (first * Scalar.pi)
  | cosine => Scalar.cosine (first * Scalar.pi)
  | tangent => Scalar.tangent (first * Scalar.pi)
  | reflect | identity => first
  | add => Scalar.atMostOne (first + second)
  | mul => first * second
  | squareRoot => Scalar.squareRoot (Scalar.magnitude first)
  | colour => Scalar.ofNat 0

def Node.eval {ν : Type} [Scalar ν] (at_ : Fragment ν) : Node ν → ν
  | .constant value => value
  | .call function arguments => function.apply at_ (arguments.map fun n => n.eval at_)

/-- A colour expression: one scalar tree for each channel. -/
structure Program (ν : Type) where
  red : Node ν
  green : Node ν
  blue : Node ν

namespace Program

variable {ν : Type}

/-- Whether two programs are equal, constants compared as numbers. -/
def same [BEq ν] (p q : Program ν) : Bool :=
  p.red.same q.red && p.green.same q.green && p.blue.same q.blue

def ofExpr [Scalar ν] : Expr Numeral → Except SoftwareFault (Program ν)
  | .number _ => .error .numberAtRoot
  | .call name arguments => do
    let function ← Node.lookup name arguments.length
    if function ≠ .colour then throw (.scalarAtRoot name)
    let channels := arguments.map Node.ofExpr
    match channels[0]?, channels[1]?, channels[2]? with
    | some red, some green, some blue => return ⟨← red, ← green, ← blue⟩
    | _, _, _ => throw (.arity name 3 arguments.length)

/-- Reads and checks a colour expression. -/
def compile [Scalar ν] (text : String) : Except SoftwareFault (Program ν) := do
  match Expr.parse text with
  | .ok e => ofExpr e
  | .error cause => throw (.parse cause)

end Program

end SeededArt.Render
