import SeededArt.Proofs.Lint.Functions
import SeededArt.Proofs.Render.Typing
/-!
# What compiles

A call has a tree exactly if its function has a scalar value and takes as many arguments, all of
which have trees (`Node.ofExpr_call_eq_ok_iff`). A text compiles exactly if it reads as a call of
`E` on three expressions that have trees, and these are the channels of its program
(`Program.compile_eq_ok_iff`). A tree has the functions that its expression calls, in the same
order (`Node.map_functions_of_ofExpr`).
-/

namespace SeededArt.Render

open Decimal

/-- `E` alone joins channels. -/
theorem Function.ofName?_eq_colour_iff {name : String} :
    ofName? name = some .colour ↔ name = "E" := by
  constructor
  · intro h
    by_contra hne
    exact ne_colour_of_ofName? h hne rfl
  · rintro rfl
    rfl

theorem map_eq_map_of_forall₂ {β γ δ : Type} {f : β → δ} {g : γ → δ} {bs : List β} {cs : List γ}
    (h : List.Forall₂ (fun b c => g c = f b) bs cs) : cs.map g = bs.map f := by
  induction h with
  | nil => rfl
  | cons hfirst _ ih => rw [List.map_cons, List.map_cons, hfirst, ih]

namespace Node

theorem lookup_eq_ok_iff {name : String} {found : Nat} {f : Function} :
    lookup name found = .ok f ↔ Function.ofName? name = some f ∧ found = f.arity := by
  constructor
  · intro h
    unfold lookup at h
    split at h
    next => cases h
    next g hname =>
      split at h
      next harity =>
        obtain rfl : g = f := Except.ok.inj h
        exact ⟨hname, harity.symm⟩
      next => cases h
  · rintro ⟨hname, hfound⟩
    exact lookup_of_ofName? hname hfound

variable {ν : Type}

/-- The functions of a tree, one before those of its arguments. -/
def functions : Node ν → List Function
  | constant _ => []
  | call f arguments => f :: arguments.flatMap fun n => n.functions

@[simp] theorem mem_functions_call {f g : Function} {arguments : List (Node ν)} :
    g ∈ (call f arguments).functions ↔ g = f ∨ ∃ n ∈ arguments, g ∈ n.functions := by
  rw [functions, List.mem_cons, List.mem_flatMap]

variable [Scalar ν] {e : Expr Numeral} {name : String} {arguments : List (Expr Numeral)}
  {node : Node ν}

theorem ofExpr_call_eq_ok_iff :
    Node.ofExpr (.call name arguments) = .ok node ↔
      ∃ f nodes, Function.ofName? name = some f ∧ f ≠ .colour ∧ arguments.length = f.arity ∧
        List.Forall₂ (fun e n => Node.ofExpr e = .ok n) arguments nodes ∧ node = .call f nodes := by
  constructor
  · intro h
    rw [Node.ofExpr, List.mapM_subtype (g := Node.ofExpr) fun _ _ => rfl, List.unattach_attach] at h
    obtain ⟨f, hlookup, h⟩ := exists_of_bind_eq_ok h
    obtain ⟨hname, hcount⟩ := lookup_eq_ok_iff.1 hlookup
    split at h
    next => cases h
    next hne =>
      obtain ⟨nodes, hnodes, h⟩ := exists_of_bind_eq_ok h
      exact ⟨f, nodes, hname, hne, hcount, mapM_eq_ok_iff.1 hnodes, (Except.ok.inj h).symm⟩
  · rintro ⟨f, nodes, hname, hne, hcount, hnodes, rfl⟩
    exact ofExpr_call hname hne hcount (mapM_eq_ok_iff.2 hnodes)

/-- What holds of constants, and of calls if it holds of their arguments, holds of every expression
and its tree. -/
theorem ofExpr_induction {P : Expr Numeral → Node ν → Prop}
    (constant : ∀ value, P (.number value) (.constant (Scalar.ofNumeral value)))
    (call : ∀ {name f arguments nodes}, Function.ofName? name = some f → f ≠ .colour →
      arguments.length = f.arity → List.Forall₂ P arguments nodes →
      P (.call name arguments) (.call f nodes))
    (h : Node.ofExpr e = .ok node) : P e node := by
  induction e using Expr.calls.induct generalizing node with
  | case1 value =>
    rw [Node.ofExpr, Except.ok.injEq] at h
    exact h ▸ constant value
  | case2 name arguments ih =>
    obtain ⟨f, nodes, hname, hne, hcount, hnodes, rfl⟩ := ofExpr_call_eq_ok_iff.1 h
    refine call hname hne hcount ?_
    clear h hcount
    induction hnodes with
    | nil => exact .nil
    | cons hnode _ ihrest =>
      obtain ⟨ihfirst, ihtail⟩ := List.forall_mem_cons.1 ih
      exact .cons (ihfirst hnode) (ihrest ihtail)

theorem map_functions_of_ofExpr (h : Node.ofExpr e = .ok node) :
    node.functions.map some = e.calls.map Function.ofName? := by
  refine ofExpr_induction (P := fun e n => n.functions.map some = e.calls.map Function.ofName?)
    (fun value => ?_) (fun hname _ _ hnodes => ?_) h
  · rw [functions, Expr.calls]
    rfl
  · rw [functions, Expr.calls, List.map_cons, List.map_cons, hname, List.map_flatMap,
      List.map_flatMap, List.flatMap_def, List.flatMap_def, map_eq_map_of_forall₂ hnodes]

theorem exists_call_of_mem_functions {f : Function} (h : Node.ofExpr e = .ok node)
    (hf : f ∈ node.functions) : ∃ name ∈ e.calls, Function.ofName? name = some f := by
  rw [← List.mem_map, ← map_functions_of_ofExpr h]
  exact List.mem_map_of_mem hf

end Node

namespace Program

variable {ν : Type} [Scalar ν] {p : Program ν} {e : Expr Numeral} {text : String}

/-- All arguments of the root have trees, or there is no program: a call of `E` that is found has
three of them. -/
theorem ofExpr_eq_mapM (name : String) (arguments : List (Expr Numeral)) :
    (Program.ofExpr (.call name arguments) : Except _ (Program ν)) = (do
      let f ← Node.lookup name arguments.length
      if f ≠ .colour then throw (.scalarAtRoot name)
      match ← arguments.mapM Node.ofExpr with
      | [red, green, blue] => return ⟨red, green, blue⟩
      | channels => throw (.arity name 3 channels.length)) := by
  rw [Program.ofExpr]
  cases hlookup : Node.lookup name arguments.length with
  | error fault => rfl
  | ok f =>
    by_cases hcolour : f = .colour
    · subst hcolour
      obtain ⟨red, green, blue, rfl⟩ :=
        List.length_eq_three.1 (Node.lookup_eq_ok_iff.1 hlookup).2
      simp [List.mapM_cons, List.mapM_nil]
    · simp only [bind, Except.bind, if_pos hcolour]
      rfl

theorem ofExpr_eq_ok_iff :
    Program.ofExpr e = .ok p ↔
      ∃ red green blue, e = .call "E" [red, green, blue] ∧ Node.ofExpr red = .ok p.red ∧
        Node.ofExpr green = .ok p.green ∧ Node.ofExpr blue = .ok p.blue := by
  constructor
  · intro h
    cases e with
    | number => cases h
    | call name arguments =>
      unfold Program.ofExpr at h
      obtain ⟨f, hlookup, h⟩ := exists_of_bind_eq_ok h
      split at h
      next => cases h
      next hcolour =>
        obtain rfl : f = .colour := not_not.1 hcolour
        obtain ⟨hname, hcount⟩ := Node.lookup_eq_ok_iff.1 hlookup
        obtain rfl := Function.ofName?_eq_colour_iff.1 hname
        obtain ⟨red, green, blue, rfl⟩ := List.length_eq_three.1 hcount
        obtain ⟨r, hred, h⟩ := exists_of_bind_eq_ok h
        obtain ⟨g, hgreen, h⟩ := exists_of_bind_eq_ok h
        obtain ⟨b, hblue, h⟩ := exists_of_bind_eq_ok h
        obtain rfl : (⟨r, g, b⟩ : Program ν) = p := Except.ok.inj h
        exact ⟨red, green, blue, rfl, hred, hgreen, hblue⟩
  · rintro ⟨red, green, blue, rfl, hred, hgreen, hblue⟩
    have hlookup : Node.lookup "E" [red, green, blue].length = .ok .colour := rfl
    rw [Program.ofExpr, hlookup]
    simp only [bind, Except.bind, List.map_cons, hred, hgreen, hblue]
    rfl

theorem compile_eq_ok_iff :
    Program.compile text = .ok p ↔
      ∃ red green blue, Expr.parse text = .ok (.call "E" [red, green, blue]) ∧
        Node.ofExpr red = .ok p.red ∧ Node.ofExpr green = .ok p.green ∧
        Node.ofExpr blue = .ok p.blue := by
  unfold Program.compile
  cases hparse : Expr.parse text with
  | error fault =>
    constructor
    · intro h
      cases h
    · rintro ⟨_, _, _, h, _⟩
      cases h
  | ok e =>
    simp only [Except.ok.injEq]
    exact ofExpr_eq_ok_iff

end Program

end SeededArt.Render
