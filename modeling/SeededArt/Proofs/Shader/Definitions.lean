import SeededArt.Proofs.Render.Typing
import SeededArt.Shader.Glsl
/-!
# Functions that a template defines

A line defines at most one function (`definedName?`), so a template defines the functions of its
lines (`Template.definesFunction_iff`). The default template defines the functions of expressions
and the main function, which is none of them (`Glsl.definesFunction_template_iff`).
-/

namespace SeededArt

open Text

namespace Template

variable {name line : List Char}

/-- The name of the function that a line defines, if it defines one. -/
def definedName? (line : List Char) : Option (List Char) :=
  let line := trim line
  if line.getLast? = some '\x7b' ∧ '(' ∈ line then
    match words (line.takeWhile (· != '(')) with
    | [type, function] => if type = "return".toList then none else some function
    | _ => none
  else none

theorem lineDefines_iff : lineDefines name line = true ↔ definedName? line = some name := by
  unfold lineDefines definedName?
  simp only [Bool.and_eq_true, beq_iff_eq, List.contains_iff_mem]
  by_cases hline : (trim line).getLast? = some '\x7b' ∧ '(' ∈ trim line
  · rw [if_pos hline, and_iff_right hline]
    generalize words ((trim line).takeWhile (· != '(')) = found
    split
    next type function =>
      by_cases hreturn : type = "return".toList
      · simp only [hreturn, bne_self_eq_false, Bool.false_and, if_true, reduceCtorEq]
      · simp only [bne_iff_ne.2 hreturn, Bool.true_and, beq_iff_eq, if_neg hreturn,
          Option.some.injEq]
    next => simp only [Bool.false_eq_true, reduceCtorEq]
  · rw [if_neg hline]
    simp only [hline, false_and, reduceCtorEq]

/-- The names of the functions that a template defines, in the order of its lines. -/
def definedNames (t : Template) : List (List Char) :=
  (lines t.fragment.toList).filterMap definedName?

theorem definesFunction_iff {t : Template} {name : String} :
    t.definesFunction name = true ↔ name.toList ∈ t.definedNames := by
  unfold definesFunction definedNames
  simp only [List.any_eq_true, lineDefines_iff, List.mem_filterMap]

end Template

/-! ## The default template -/

namespace Render.Function

variable {name : String}

theorem isSome_ofName?_iff : (ofName? name).isSome = true ↔ name ∈ table.map Prod.fst := by
  unfold ofName?
  rw [List.lookup_isSome_iff, List.mem_map]
  exact exists_congr fun p => and_congr_right fun _ => beq_iff_eq.trans eq_comm

end Render.Function

namespace Glsl

open Render

theorem toList_helper (signature statement : String) :
    (helper signature statement).toList =
      signature.toList ++ (" \x7b\n    ".toList ++ (statement.toList ++ "\n\x7d\n".toList)) := by
  unfold helper
  simp only [String.toList_append, List.append_assoc]

theorem toList_fragment : fragment.toList =
    "#version 100\n\nprecision highp float;\nuniform vec2 resolution;\nuniform float scale;\n\n".toList
      ++ ("#define M_PI 3.1415926535897932384626433832795\n\n".toList ++
        "\n".toList.intercalate (helpers.map String.toList)) := by
  unfold fragment
  rw [String.toList_append, String.toList_append, String.toList_intercalate, List.append_assoc]

theorem definedNames_template :
    template.definedNames = (Function.table.map Prod.fst ++ ["main"]).map String.toList := by
  unfold Template.definedNames template
  rw [toList_fragment]
  conv_lhs => simp only [helpers, List.map_cons, List.map_nil, toList_helper]
  -- taken apart one by one here, since evaluation would decode their bytes
  repeat rw [String.toList_ofList]
  decide +kernel

theorem definesFunction_template_iff {name : String} :
    template.definesFunction name = true ↔
      (Function.ofName? name).isSome = true ∨ name = "main" := by
  rw [Template.definesFunction_iff, definedNames_template,
    List.mem_map_of_injective fun _ _ => String.toList_inj.1, List.mem_append, List.mem_singleton,
    Function.isSome_ofName?_iff]

end Glsl

end SeededArt
