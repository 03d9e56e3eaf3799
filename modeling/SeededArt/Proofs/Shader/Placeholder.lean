import SeededArt.Error
import SeededArt.Proofs.Text.Occurrences
/-!
# Fragments with one placeholder

A template should have one position to put the expression, so it would be accepted exactly if its
placeholder occurs at one position (`IsUnambiguous`). It is accepted as well if the placeholder
occurs at several positions, all of which overlap the first, since occurrences are counted without
overlap (`new_accepts`). This needs a placeholder that overlaps itself, so for every other
placeholder the two are the same. For `aa` in `aaa` they are not (`new_overlapping`).
-/

namespace SeededArt.Template

open Text

variable {vertex fragment placeholder : String}

/-- A placeholder that is not empty occurs at one position, others that overlap it counted too. -/
def IsUnambiguous (fragment placeholder : String) : Prop :=
  placeholder ≠ "" ∧ ∃! i, OccursAt placeholder.toList fragment.toList i

theorem new_eq_ok_iff {t : Template} : new vertex fragment placeholder = .ok t ↔
    t = ⟨vertex, fragment, placeholder⟩ ∧
      placeholder ≠ "" ∧ occurrences placeholder.toList fragment.toList = 1 := by
  unfold new
  by_cases hempty : placeholder = ""
  · simp [hempty]
  · by_cases hone : occurrences placeholder.toList fragment.toList = 1
    · simp [hempty, hone, eq_comm]
    · simp [hempty, hone]

theorem exists_new_iff : (∃ t, new vertex fragment placeholder = .ok t) ↔
    placeholder ≠ "" ∧ occurrences placeholder.toList fragment.toList = 1 := by
  simp only [new_eq_ok_iff, exists_eq_left]

theorem IsUnambiguous.exists_new (h : IsUnambiguous fragment placeholder) :
    ∃ t, new vertex fragment placeholder = .ok t := by
  obtain ⟨hplaceholder, hunique⟩ := h
  refine exists_new_iff.2 ⟨hplaceholder, occurrences_eq_one_of_existsUnique ?_ hunique⟩
  exact String.toList_eq_nil_iff.not.2 hplaceholder

theorem isUnambiguous_of_exists_new (hself : ¬IsSelfOverlapping placeholder.toList)
    (h : ∃ t, new vertex fragment placeholder = .ok t) : IsUnambiguous fragment placeholder := by
  obtain ⟨hplaceholder, hone⟩ := exists_new_iff.1 h
  refine ⟨hplaceholder, existsUnique_of_occurrences_eq_one ?_ hself hone⟩
  exact String.toList_eq_nil_iff.not.2 hplaceholder

/-- A template is accepted exactly if its placeholder is not empty and occurs in the fragment, and
all its occurrences overlap the first. If not, the error is one of configuration. A placeholder that
occurs at one position is accepted, and one that does not overlap itself is accepted only then. -/
theorem new_accepts {α ε : Type} (vertex fragment placeholder : String) :
    ((∃ t, new vertex fragment placeholder = .ok t) ↔
        placeholder ≠ "" ∧ ∃ i, OccursAt placeholder.toList fragment.toList i ∧
          ∀ j, OccursAt placeholder.toList fragment.toList j →
            i ≤ j ∧ j < i + placeholder.length) ∧
      ((∀ t, new vertex fragment placeholder ≠ .ok t) → ∃ cause,
        new vertex fragment placeholder = .error cause ∧
          (Error.template cause : Error α ε).kind = .config) ∧
      (IsUnambiguous fragment placeholder → ∃ t, new vertex fragment placeholder = .ok t) ∧
      (¬IsSelfOverlapping placeholder.toList →
        ((∃ t, new vertex fragment placeholder = .ok t) ↔
          IsUnambiguous fragment placeholder)) := by
  refine ⟨?_, fun hnone => ?_, IsUnambiguous.exists_new, fun hself => ?_⟩
  · rw [exists_new_iff, ← String.length_toList]
    exact and_congr_right fun h => occurrences_eq_one_iff (String.toList_eq_nil_iff.not.2 h)
  · cases hnew : new vertex fragment placeholder with
    | ok t => exact absurd hnew (hnone t)
    | error cause => exact ⟨cause, rfl, rfl⟩
  · exact ⟨isUnambiguous_of_exists_new hself, IsUnambiguous.exists_new⟩

/-- A placeholder that does not overlap itself, in a fragment that has it once and in one that has
it twice. -/
theorem new_accepts_EXPR :
    ¬IsSelfOverlapping "EXPR".toList ∧ IsUnambiguous "color = EXPR;" "EXPR" ∧
      (∀ t, new "" "a = EXPR; b = EXPR;" "EXPR" ≠ .ok t) ∧
      ∃ cause, new "" "a = EXPR; b = EXPR;" "EXPR" = .error cause ∧
        (Error.template cause : Error Float Empty).kind = .config := by
  have hself : ¬IsSelfOverlapping "EXPR".toList := by decide
  obtain ⟨-, -, -, hunambiguous⟩ := new_accepts (α := Float) (ε := Empty) "" "color = EXPR;" "EXPR"
  obtain ⟨-, hrefused, -, -⟩ :=
    new_accepts (α := Float) (ε := Empty) "" "a = EXPR; b = EXPR;" "EXPR"
  have hnone : ∀ t, new "" "a = EXPR; b = EXPR;" "EXPR" ≠ .ok t := by
    intro t ht
    exact absurd (exists_new_iff.1 ⟨t, ht⟩).2 (by decide)
  exact ⟨hself, (hunambiguous hself).1 (exists_new_iff.2 ⟨by decide, by decide⟩), hnone,
    hrefused hnone⟩

/-- A placeholder that is accepted although it occurs at two positions. -/
theorem new_overlapping :
    new "" "aaa" "aa" = .ok ⟨"", "aaa", "aa"⟩ ∧
      OccursAt "aa".toList "aaa".toList 0 ∧ OccursAt "aa".toList "aaa".toList 1 ∧
      ¬((∃ t, new "" "aaa" "aa" = .ok t) ↔ IsUnambiguous "aaa" "aa") := by
  have hfirst : OccursAt "aa".toList "aaa".toList 0 := by decide
  have hsecond : OccursAt "aa".toList "aaa".toList 1 := by decide
  have hnew : new "" "aaa" "aa" = .ok ⟨"", "aaa", "aa"⟩ := by decide
  refine ⟨hnew, hfirst, hsecond, fun h => ?_⟩
  exact Nat.zero_ne_one ((h.1 ⟨_, hnew⟩).2.unique hfirst hsecond)

end SeededArt.Template
