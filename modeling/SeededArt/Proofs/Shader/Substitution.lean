import SeededArt.Proofs.Shader.Definitions
import SeededArt.Proofs.Shader.Placeholder
/-!
# Emission

A template that is accepted has its placeholder in the fragment, so the fragment is cut around the
first occurrence, the one that was counted (`exists_frame`). What stands before and after it depends
on the template alone, and `Template.emit` puts the expression between the two without looking into
it. So an expression may hold the placeholder itself, or make one up with what stands around it, and
can still be cut out of the emitted fragment again (`emit_puts_once`).
-/

namespace SeededArt

open Text

/-! ## Accepted templates -/

theorem Glsl.occurrences_placeholder : occurrences placeholder.toList fragment.toList = 1 := by
  rw [toList_fragment]
  conv_lhs => simp only [helpers, List.map_cons, List.map_nil, toList_helper, placeholder]
  -- the constants are taken apart one by one, as for the functions that the template defines
  repeat rw [String.toList_ofList]
  decide +kernel

namespace Template

variable {t : Template} {before after : String}

/-- A template that can be had: the default one, or one that was accepted. -/
def IsAvailable (t : Template) : Prop :=
  t = Glsl.template ∨ ∃ vertex fragment placeholder, new vertex fragment placeholder = .ok t

theorem new_glsl : new Glsl.vertex Glsl.fragment Glsl.placeholder = .ok Glsl.template :=
  new_eq_ok_iff.2 ⟨rfl, by decide, Glsl.occurrences_placeholder⟩

theorem IsAvailable.counted (ht : t.IsAvailable) :
    t.placeholder ≠ "" ∧ occurrences t.placeholder.toList t.fragment.toList = 1 := by
  obtain ⟨vertex, fragment, placeholder, hnew⟩ :
      ∃ vertex fragment placeholder, new vertex fragment placeholder = .ok t := by
    rcases ht with rfl | hnew
    · exact ⟨_, _, _, new_glsl⟩
    · exact hnew
  obtain ⟨rfl, hcounted⟩ := new_eq_ok_iff.1 hnew
  exact hcounted

/-! ## The frame of the expression -/

/-- What stands before and after the first occurrence of the placeholder. -/
def HasFrame (t : Template) (before after : String) : Prop :=
  splitAround t.placeholder.toList t.fragment.toList = some (before.toList, after.toList)

theorem IsAvailable.exists_frame (ht : t.IsAvailable) :
    ∃ before after, t.HasFrame before after := by
  obtain ⟨hplaceholder, hone⟩ := ht.counted
  obtain ⟨i, hi, -⟩ :=
    (occurrences_eq_one_iff (String.toList_eq_nil_iff.not.2 hplaceholder)).1 hone
  cases hsplit : splitAround t.placeholder.toList t.fragment.toList with
  | none => exact absurd hi (splitAround_eq_none_iff.1 hsplit i)
  | some parts =>
    refine ⟨.ofList parts.1, .ofList parts.2, ?_⟩
    rw [HasFrame, String.toList_ofList, String.toList_ofList, hsplit]

namespace HasFrame

theorem fragment_eq (h : t.HasFrame before after) :
    t.fragment = before ++ t.placeholder ++ after := by
  rw [← String.toList_inj, String.toList_append, String.toList_append]
  exact eq_append_of_splitAround h

theorem occursAt (h : t.HasFrame before after) :
    OccursAt t.placeholder.toList t.fragment.toList before.length := by
  unfold OccursAt
  rw [h.fragment_eq, String.toList_append, String.toList_append, List.append_assoc,
    ← String.length_toList, List.drop_left]
  exact List.prefix_append _ _

theorem not_occursAt (h : t.HasFrame before after) :
    ∀ j < before.length, ¬OccursAt t.placeholder.toList t.fragment.toList j := by
  intro j hj
  rw [← String.length_toList] at hj
  exact not_occursAt_of_splitAround h hj

/-- The expression takes the place of the placeholder, and nothing else changes. -/
theorem emit_eq (h : t.HasFrame before after) (expression : String) :
    t.emit expression = ⟨t.vertex, before ++ expression ++ after, expression⟩ := by
  have hsplit : splitAround t.placeholder.toList t.fragment.toList =
      some (before.toList, after.toList) := h
  unfold emit replaceFirst
  rw [hsplit]
  simp only [String.ofList_append, String.ofList_toList]

end HasFrame

/-- What a text holds between a beginning and an end of given lengths. -/
def cutOut (before after text : String) : String :=
  .ofList ((text.toList.drop before.length).take (text.length - before.length - after.length))

theorem cutOut_append (before expression after : String) :
    cutOut before after (before ++ expression ++ after) = expression := by
  have hlength : (before ++ expression ++ after).length - before.length - after.length =
      expression.toList.length := by
    rw [String.length_append, String.length_append, String.length_toList]
    omega
  unfold cutOut
  rw [hlength, String.toList_append, String.toList_append, List.append_assoc,
    ← String.length_toList, List.drop_left, List.take_left, String.ofList_toList]

/-- Every available template has a text before and a text after the counted occurrence of its
placeholder. Each expression is emitted between the two, and the vertex source is left alone. So the
expression can be cut out again, and different expressions give different fragments. -/
theorem emit_puts_once (ht : t.IsAvailable) :
    ∃ before after, t.fragment = before ++ t.placeholder ++ after ∧
      OccursAt t.placeholder.toList t.fragment.toList before.length ∧
      (∀ j < before.length, ¬OccursAt t.placeholder.toList t.fragment.toList j) ∧
      (∀ expression, t.emit expression = ⟨t.vertex, before ++ expression ++ after, expression⟩) ∧
      (∀ expression, cutOut before after (t.emit expression).fragment = expression) ∧
      Function.Injective fun expression => (t.emit expression).fragment := by
  obtain ⟨before, after, hframe⟩ := ht.exists_frame
  have hcut : Function.LeftInverse (cutOut before after) fun expression =>
      (t.emit expression).fragment := by
    intro expression
    simp only [hframe.emit_eq]
    exact cutOut_append before expression after
  exact ⟨before, after, hframe.fragment_eq, hframe.occursAt, hframe.not_occursAt, hframe.emit_eq,
    hcut, hcut.injective⟩

/-- A placeholder that overlaps itself, in a fragment that has it at two positions. -/
theorem emit_puts_once_overlapping :
    (Template.mk "" "(aaa)" "aa").IsAvailable ∧
      ∃ before after, "(aaa)" = before ++ "aa" ++ after ∧
        (∀ expression, (Template.mk "" "(aaa)" "aa").emit expression =
          ⟨"", before ++ expression ++ after, expression⟩) ∧
        ∀ expression, cutOut before after
          ((Template.mk "" "(aaa)" "aa").emit expression).fragment = expression := by
  have havailable : (Template.mk "" "(aaa)" "aa").IsAvailable := .inr ⟨"", "(aaa)", "aa", by decide⟩
  obtain ⟨before, after, hfragment, -, -, hemit, hcut, -⟩ := emit_puts_once havailable
  exact ⟨havailable, before, after, hfragment, hemit, hcut⟩

example : ((Template.mk "" "(aaa)" "aa").emit "a-aa").fragment = "(a-aaa)" := by decide

end Template

end SeededArt
