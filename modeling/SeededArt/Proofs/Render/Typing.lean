import SeededArt.Proofs.Expr.Reading
import SeededArt.Render.Program
/-!
# Scalar and colour expressions

A scalar expression is a number, or a call of a function with a scalar value on as many scalar
expressions as it takes; a colour expression joins three of them. Its functions are known, so the
text of a colour expression reads back (`IsColour.readable`), and then it compiles
(`IsColour.exists_compile`).
-/

namespace SeededArt.Render

open Decimal SeededArt.Expr

namespace Function

variable {name : String} {f : Function}

theorem mem_table_of_ofName? (h : ofName? name = some f) : (name, f) ∈ table := by
  unfold ofName? at h
  obtain ⟨before, after, htable, -⟩ := List.lookup_eq_some_iff.1 h
  rw [htable]
  exact List.mem_append_right _ List.mem_cons_self

theorem isIdentifier_of_ofName? (h : ofName? name = some f) :
    isIdentifier name.toList = true := by
  have hall : ∀ p ∈ table, isIdentifier p.1.toList = true := by decide
  exact hall _ (mem_table_of_ofName? h)

/-- One name alone joins channels. -/
theorem ne_colour_of_ofName? (h : ofName? name = some f) (hne : name ≠ "E") : f ≠ .colour := by
  have hall : ∀ p ∈ table, p.1 ≠ "E" → p.2 ≠ .colour := by decide
  exact hall _ (mem_table_of_ofName? h) hne

end Function

section Typing

variable {ν μ : Type} {P : ν → Prop} {e : Expr ν}

/-- Scalar expressions whose numbers have a property. -/
inductive IsScalar (P : ν → Prop) : Expr ν → Prop
  | number {value : ν} : P value → IsScalar P (.number value)
  | call {name : String} {f : Function} {arguments : List (Expr ν)} :
      Function.ofName? name = some f → name ≠ "E" → arguments.length = f.arity →
      (∀ e ∈ arguments, IsScalar P e) → IsScalar P (.call name arguments)

/-- Colour expressions: three scalar channels. -/
inductive IsColour (P : ν → Prop) : Expr ν → Prop
  | channels {red green blue : Expr ν} : IsScalar P red → IsScalar P green → IsScalar P blue →
      IsColour P (.call "E" [red, green, blue])

/-! ## Reading back -/

section Readable

variable {literal : ν → String} {read : ν → Numeral}

theorem IsScalar.readable (hread : ∀ u, P u → ReadsNumber (literal u) (read u))
    (h : IsScalar P e) : Readable literal read e := by
  induction h with
  | number h => exact .number (hread _ h)
  | call hname _ _ _ ih => exact .call (Function.isIdentifier_of_ofName? hname) ih

theorem IsColour.readable (hread : ∀ u, P u → ReadsNumber (literal u) (read u))
    (h : IsColour P e) : Readable literal read e := by
  cases h with
  | channels hred hgreen hblue =>
    refine .call (by decide) ?_
    simp only [List.forall_mem_cons]
    exact ⟨hred.readable hread, hgreen.readable hread, hblue.readable hread, by simp⟩

end Readable

/-! ## Compiling -/

theorem Node.lookup_of_ofName? {name : String} {f : Function} {found : Nat}
    (h : Function.ofName? name = some f) (hfound : found = f.arity) :
    Node.lookup name found = .ok f := by
  simp only [Node.lookup, h, hfound, if_true]

variable [Scalar μ] {f : ν → Numeral}

theorem Node.ofExpr_call {name : String} {g : Function} {arguments : List (Expr Numeral)}
    {nodes : List (Node μ)} (hname : Function.ofName? name = some g) (hne : g ≠ .colour)
    (hcount : arguments.length = g.arity) (hnodes : arguments.mapM Node.ofExpr = .ok nodes) :
    Node.ofExpr (.call name arguments) = .ok (Node.call g nodes) := by
  rw [Node.ofExpr, lookup_of_ofName? hname hcount,
    List.mapM_subtype (g := Node.ofExpr) fun _ _ => rfl, List.unattach_attach]
  simp only [bind, Except.bind, if_neg hne, hnodes]
  rfl

theorem IsScalar.exists_ofExpr (h : IsScalar P e) :
    ∃ node : Node μ, Node.ofExpr (e.map f) = .ok node := by
  induction h with
  | number =>
    rw [Expr.map, Node.ofExpr]
    exact ⟨_, rfl⟩
  | @call name g arguments hname hne hcount _ ih =>
    obtain ⟨nodes, hnodes⟩ : ∃ nodes : List (Node μ),
        (arguments.map fun e => e.map f).mapM Node.ofExpr = .ok nodes := by
      refine exists_mapM_eq_ok ?_
      rw [List.forall_mem_map]
      exact ih
    rw [Expr.map]
    exact ⟨.call g nodes, Node.ofExpr_call hname (Function.ne_colour_of_ofName? hname hne)
      (by rwa [List.length_map]) hnodes⟩

theorem IsColour.exists_ofExpr (h : IsColour P e) :
    ∃ program : Program μ, Program.ofExpr (e.map f) = .ok program := by
  cases h with
  | channels hred hgreen hblue =>
    obtain ⟨red, hred⟩ := hred.exists_ofExpr (μ := μ) (f := f)
    obtain ⟨green, hgreen⟩ := hgreen.exists_ofExpr (μ := μ) (f := f)
    obtain ⟨blue, hblue⟩ := hblue.exists_ofExpr (μ := μ) (f := f)
    refine ⟨⟨red, green, blue⟩, ?_⟩
    have hlookup : Node.lookup "E" 3 = .ok .colour := rfl
    rw [Expr.map, Program.ofExpr, List.length_map]
    simp only [List.length_cons, List.length_nil, hlookup, List.map_cons, hred, hgreen, hblue]
    rfl

theorem IsColour.exists_compile {literal : ν → String} {read : ν → Numeral}
    (hread : ∀ u, P u → ReadsNumber (literal u) (read u)) (h : IsColour P e) :
    ∃ program : Program μ, Program.compile (e.text literal) = .ok program := by
  unfold Program.compile
  rw [(h.readable hread).parse_text]
  exact h.exists_ofExpr

end Typing

end SeededArt.Render
