import SeededArt.Proofs.Expr.Form
import SeededArt.Proofs.Expr.Slices
/-!
# The language of expressions

Reading accepts the texts of forms and no others, and answers the expression of the one form that a
text has. Read by slices, no text takes more levels than it has characters, and no slice lies
outside of it (`parse_eq_ok_iff_form`).
-/

namespace SeededArt.Expr

open Decimal Text

/-- A text reads as an expression exactly if it has a form with that expression. It has at most one
form, and without a form reading is refused. Numbers have no character that cuts or is trimmed. -/
theorem parse_eq_ok_iff_form (text : String) :
    (∀ e, parse text = .ok e ↔ ∃ t : Form, t.chars = text.toList ∧ t.expr = e) ∧
      (∀ t u : Form, t.chars = text.toList → u.chars = text.toList → t = u) ∧
      ((∃ cause, parse text = .error cause) ↔ ∀ t : Form, t.chars ≠ text.toList) ∧
      (∀ n : NumberText, ∀ c ∈ n.chars, IsPlain c ∧ isBlank c = false) ∧
      ∀ levels, text.toList.length < levels →
        parseSlices levels text.toList = (parse text).mapError .parse := by
  have hread {t : Form} (ht : t.chars = text.toList) : parse text = .ok t.expr := by
    unfold parse
    rw [← ht]
    exact t.parseChars_chars
  refine ⟨fun e => ⟨exists_form_of_parseChars, ?_⟩, ?_, ?_, NumberText.isPlain, ?_⟩
  · rintro ⟨t, ht, rfl⟩
    exact hread ht
  · intro t u ht hu
    exact Form.chars_injective (ht.trans hu.symm)
  · constructor
    · rintro ⟨cause, hcause⟩ t ht
      rw [hread ht] at hcause
      cases hcause
    · intro hnone
      cases hparse : parse text with
      | error cause => exact ⟨cause, rfl⟩
      | ok e =>
        obtain ⟨t, ht, -⟩ := exists_form_of_parseChars hparse
        exact absurd ht (hnone t)
  · intro levels hlevels
    exact parseSlices_eq hlevels

/-- A call with blanks in all places, and an argument list that ends with a comma. -/
theorem exists_form_spaced :
    (∃ t : Form, t.chars = " f\t( x( ) , -.5e1 )\n".toList ∧
        ∀ u : Form, u.chars = " f\t( x( ) , -.5e1 )\n".toList → u = t) ∧
      ∀ t : Form, t.chars ≠ "f(x(),)".toList := by
  obtain ⟨haccept, hunique, -⟩ := parse_eq_ok_iff_form " f\t( x( ) , -.5e1 )\n"
  obtain ⟨-, -, hreject, -⟩ := parse_eq_ok_iff_form "f(x(),)"
  obtain ⟨t, ht, -⟩ := (haccept (.call "f" [.call "x" [], .number (.finite true 5 0)])).1
    (by decide +kernel)
  exact ⟨⟨t, ht, fun u hu => hunique u t hu ht⟩, hreject.1 ⟨.empty, by decide +kernel⟩⟩

end SeededArt.Expr
