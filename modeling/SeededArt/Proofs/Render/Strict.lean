import SeededArt.Proofs.Render.Channels
/-!
# Evaluation without defaults

Evaluation counts a missing argument as zero, and a colour too. `Expr.value?` evaluates the
expression itself and has neither default: it has no value where a name is not known, a function has
too few or too many arguments, or a colour stands for a number. `Node.evalOr` is evaluation with any
two numbers in the place of the defaults.

In a tree that was compiled every function has a scalar value and all its arguments
(`Node.hasArguments_of_ofExpr`). So the expression of the tree has a value, and evaluation gives it
whatever the defaults are (`Node.value?_of_ofExpr`).
-/

namespace SeededArt

open Decimal Render

/-! ## Values of expressions -/

section Values

variable {ν : Type} [Scalar ν] {at_ : Fragment ν}

/-- The value of a function on exactly as many arguments as it takes. A colour has none. -/
def Render.Function.value? (at_ : Fragment ν) : Function → List ν → Option ν
  | x, [] => some at_.x
  | y, [] => some at_.y
  | absX, [] => some (Scalar.magnitude at_.x)
  | absY, [] => some (Scalar.magnitude at_.y)
  | distance, [] => some (Scalar.hypotenuse at_.x at_.y)
  | sine, [a] => some (Scalar.sine (a * Scalar.pi))
  | cosine, [a] => some (Scalar.cosine (a * Scalar.pi))
  | tangent, [a] => some (Scalar.tangent (a * Scalar.pi))
  | reflect, [a] => some a
  | identity, [a] => some a
  | squareRoot, [a] => some (Scalar.squareRoot (Scalar.magnitude a))
  | add, [a, b] => some (Scalar.atMostOne (a + b))
  | mul, [a, b] => some (a * b)
  | _, _ => none

namespace Expr

mutual

/-- The value of an expression at a fragment, if every call in it has one. -/
def value? (at_ : Fragment ν) : Expr Numeral → Option ν
  | number value => some (Scalar.ofNumeral value)
  | call name arguments => do
    let f ← Function.ofName? name
    f.value? at_ (← values? at_ arguments)

def values? (at_ : Fragment ν) : List (Expr Numeral) → Option (List ν)
  | [] => some []
  | e :: rest => do return (← value? at_ e) :: (← values? at_ rest)

end

theorem value?_call {name : String} {f : Function} {arguments : List (Expr Numeral)}
    {values : List ν} (hname : Function.ofName? name = some f)
    (hvalues : values? at_ arguments = some values) :
    value? at_ (call name arguments) = f.value? at_ values := by
  rw [value?, hname, hvalues]
  rfl

theorem values?_of_forall₂ {es : List (Expr Numeral)} {values : List ν}
    (h : List.Forall₂ (fun e v => value? at_ e = some v) es values) :
    values? at_ es = some values := by
  induction h with
  | nil => rw [values?]
  | cons hfirst _ ih =>
    rw [values?, hfirst, ih]
    rfl

end Expr

end Values

namespace Render

/-! ## Other defaults -/

section Defaults

variable {ν : Type} [Scalar ν] {at_ : Fragment ν} {missing forColour : ν}

/-- The value of a function at a fragment, with a number for missing arguments and one for a
colour. -/
def Function.applyOr (missing forColour : ν) (f : Function) (at_ : Fragment ν)
    (arguments : List ν) : ν :=
  let first := arguments[0]?.getD missing
  let second := arguments[1]?.getD missing
  match f with
  | x => at_.x
  | y => at_.y
  | absX => Scalar.magnitude at_.x
  | absY => Scalar.magnitude at_.y
  | distance => Scalar.hypotenuse at_.x at_.y
  | sine => Scalar.sine (first * Scalar.pi)
  | cosine => Scalar.cosine (first * Scalar.pi)
  | tangent => Scalar.tangent (first * Scalar.pi)
  | reflect | identity => first
  | add => Scalar.atMostOne (first + second)
  | mul => first * second
  | squareRoot => Scalar.squareRoot (Scalar.magnitude first)
  | colour => forColour

/-- The value of a tree at a fragment, with a number for missing arguments and one for colours. -/
def Node.evalOr (missing forColour : ν) (at_ : Fragment ν) : Node ν → ν
  | .constant value => value
  | .call f arguments =>
    f.applyOr missing forColour at_ (arguments.map fun n => n.evalOr missing forColour at_)

theorem Node.evalOr_zero (n : Node ν) :
    n.evalOr (Scalar.ofNat 0) (Scalar.ofNat 0) at_ = n.eval at_ := by
  induction n using Node.functions.induct with
  | case1 value => rw [evalOr, eval]
  | case2 f arguments ih =>
    rw [evalOr, eval, List.map_congr_left ih]
    cases f <;> rfl

/-- A function with all its arguments needs neither number. -/
theorem Function.value?_eq_some_applyOr {f : Function} {values : List ν} (hne : f ≠ .colour)
    (hcount : values.length = f.arity) :
    f.value? at_ values = some (f.applyOr missing forColour at_ values) := by
  have hnone (h : f.arity = 0) : values = [] := List.length_eq_zero_iff.1 (hcount.trans h)
  have hone (h : f.arity = 1) : ∃ a, values = [a] := List.length_eq_one_iff.1 (hcount.trans h)
  have htwo (h : f.arity = 2) : ∃ a b, values = [a, b] := List.length_eq_two.1 (hcount.trans h)
  cases f with
  | colour => exact absurd rfl hne
  | x | y | absX | absY | distance =>
    obtain rfl := hnone rfl
    rfl
  | sine | cosine | tangent | reflect | squareRoot | identity =>
    obtain ⟨a, rfl⟩ := hone rfl
    rfl
  | add | mul =>
    obtain ⟨a, b, rfl⟩ := htwo rfl
    rfl

end Defaults

/-! ## Compiled trees -/

namespace Node

variable {ν : Type}

/-- A tree and those inside it, a call before its arguments. -/
def nodes : Node ν → List (Node ν)
  | constant value => [constant value]
  | call f arguments => call f arguments :: arguments.flatMap fun n => n.nodes

/-- Every function in a tree has a scalar value and as many arguments as it takes. -/
def HasArguments (n : Node ν) : Prop :=
  ∀ f arguments, call f arguments ∈ n.nodes → arguments.length = f.arity ∧ f ≠ .colour

theorem hasArguments_constant (value : ν) : (constant value).HasArguments := by
  intro f arguments h
  rw [nodes, List.mem_singleton] at h
  cases h

theorem hasArguments_call {f : Function} {arguments : List (Node ν)} (hne : f ≠ .colour)
    (hcount : arguments.length = f.arity) (h : ∀ n ∈ arguments, n.HasArguments) :
    (call f arguments).HasArguments := by
  intro g others hmem
  rw [nodes, List.mem_cons, List.mem_flatMap] at hmem
  rcases hmem with heq | ⟨n, hn, hmem⟩
  · obtain ⟨rfl, rfl⟩ := Node.call.inj heq
    exact ⟨hcount, hne⟩
  · exact h n hn g others hmem

variable [Scalar ν] {e : Expr Numeral} {n : Node ν} {at_ : Fragment ν} {missing forColour : ν}

theorem hasArguments_of_ofExpr (h : Node.ofExpr e = .ok n) : n.HasArguments := by
  refine ofExpr_induction (P := fun _ n => n.HasArguments) (fun _ => hasArguments_constant _)
    (fun {name f arguments nodes} _ hne hcount hnodes => ?_) h
  have hall : ∀ n ∈ nodes, n.HasArguments := by
    clear hcount
    induction hnodes with
    | nil => exact List.forall_mem_nil _
    | cons hnode _ ih => exact List.forall_mem_cons.2 ⟨hnode, ih⟩
  exact hasArguments_call hne (hnodes.length_eq ▸ hcount) hall

/-- The expression of a tree has a value, and no default counts in that of the tree. -/
theorem value?_of_ofExpr (h : Node.ofExpr e = .ok n) :
    e.value? at_ = some (n.evalOr missing forColour at_) := by
  refine ofExpr_induction (P := fun e n => e.value? at_ = some (n.evalOr missing forColour at_))
    (fun value => ?_) (fun {name f arguments nodes} hname hne hcount hnodes => ?_) h
  · rw [Expr.value?, evalOr]
  · have hvalues : Expr.values? at_ arguments =
        some (nodes.map fun n => n.evalOr missing forColour at_) :=
      Expr.values?_of_forall₂ (List.forall₂_map_right_iff.2 hnodes)
    rw [Expr.value?_call hname hvalues, evalOr]
    refine Function.value?_eq_some_applyOr hne ?_
    rw [List.length_map, ← hnodes.length_eq, hcount]

theorem evalOr_of_ofExpr (h : Node.ofExpr e = .ok n) :
    n.evalOr missing forColour at_ = n.eval at_ := by
  have hvalue : e.value? at_ = some (n.evalOr missing forColour at_) := value?_of_ofExpr h
  rw [value?_of_ofExpr h, evalOr_zero] at hvalue
  exact (Option.some.inj hvalue).symm

end Node

/-- A text that compiles is a call of `E` on an expression for each channel. In the trees of the
channels every function has a scalar value and all its arguments. So each of the expressions has a
value at every fragment, and this is what its tree evaluates to, whatever a missing argument or a
colour would count as. -/
theorem compile_takes_no_default {ν : Type} [Scalar ν] {text : String} {p : Program ν}
    (h : Program.compile text = .ok p) :
    ∃ e : Channel → Expr Numeral,
      Expr.parse text = .ok (.call "E" [e .red, e .green, e .blue]) ∧
      ∀ c, (p.channel c).HasArguments ∧
        ∀ at_ : Fragment ν, (e c).value? at_ = some ((p.channel c).eval at_) ∧
          c.level (p.shade at_) = Scalar.level ((p.channel c).eval at_) ∧
          ∀ missing forColour,
            (p.channel c).evalOr missing forColour at_ = (p.channel c).eval at_ := by
  obtain ⟨red, green, blue, hparse, hred, hgreen, hblue⟩ := Program.compile_eq_ok_iff.1 h
  refine ⟨Channel.rec red green blue, hparse, fun c => ?_⟩
  have hchannel : Node.ofExpr (Channel.rec red green blue c) = .ok (p.channel c) := by
    cases c with
    | red => exact hred
    | green => exact hgreen
    | blue => exact hblue
  refine ⟨Node.hasArguments_of_ofExpr hchannel, fun at_ => ⟨?_, p.level_shade c at_, ?_⟩⟩
  · rw [← Node.evalOr_zero]
    exact Node.value?_of_ofExpr hchannel
  · intro missing forColour
    exact Node.evalOr_of_ofExpr hchannel

/-- A channel with a sum: its tree evaluates to the sum of the values of its two arguments. -/
theorem compile_takes_no_default_sum :
    ∃ p : Program Float32, Program.compile "E(get_x(), add(0.5, get_y()), 0.5)" = .ok p ∧
      (∀ c, (p.channel c).HasArguments) ∧ ∀ at_ : Fragment Float32,
        p.green.eval at_ =
          Scalar.atMostOne (Scalar.ofNumeral (.finite false 5 (-1)) + at_.y) := by
  have hleaf {name : String} {f : Function} (hname : Function.ofName? name = some f)
      (hne : f ≠ .colour) (harity : 0 = f.arity) :
      Node.ofExpr (.call name []) = .ok (Node.call (ν := Float32) f []) :=
    Node.ofExpr_call hname hne harity rfl
  have hx : Node.ofExpr (.call "get_x" []) = .ok _ := hleaf rfl (by decide) rfl
  have hy : Node.ofExpr (.call "get_y" []) = .ok _ := hleaf rfl (by decide) rfl
  have hhalf : Node.ofExpr (.number (.finite false 5 (-1))) =
      .ok (Node.constant (ν := Float32) (Scalar.ofNumeral (.finite false 5 (-1)))) := by
    rw [Node.ofExpr]
  have hadd : Node.ofExpr (.call "add" [.number (.finite false 5 (-1)), .call "get_y" []]) =
      .ok (Node.call (ν := Float32) .add [_, _]) :=
    Node.ofExpr_call rfl (by decide) rfl (mapM_eq_ok_iff.2 (.cons hhalf (.cons hy .nil)))
  have hparse : Expr.parse "E(get_x(), add(0.5, get_y()), 0.5)" = .ok (.call "E"
      [.call "get_x" [], .call "add" [.number (.finite false 5 (-1)), .call "get_y" []],
        .number (.finite false 5 (-1))]) := by
    decide +kernel
  have hcompile : Program.compile (ν := Float32) "E(get_x(), add(0.5, get_y()), 0.5)" =
      .ok ⟨_, _, _⟩ := Program.compile_eq_ok_iff.2 ⟨_, _, _, hparse, hx, hadd, hhalf⟩
  obtain ⟨e, hcall, hchannels⟩ := compile_takes_no_default hcompile
  refine ⟨_, hcompile, fun c => (hchannels c).1, fun at_ => ?_⟩
  have hgreen : e .green = .call "add" [.number (.finite false 5 (-1)), .call "get_y" []] := by
    rw [hparse] at hcall
    exact ((List.cons.inj (List.cons.inj (Expr.call.inj (Except.ok.inj hcall)).2).2).1).symm
  have hvalue := ((hchannels .green).2 at_).1
  rw [hgreen] at hvalue
  exact (Option.some.inj hvalue).symm

end Render

end SeededArt
