import Mathlib.Data.Nat.Find
import Mathlib.Logic.ExistsUnique
import SeededArt.Text.Search
/-!
# Where a pattern occurs

A pattern occurs at a position if the text from there on begins with it; occurrences may overlap.
Counting without overlap takes the first occurrence and goes on behind it (`occurrences_of_first`).
So it counts one if all occurrences overlap the first (`occurrences_eq_one_iff`). Two that overlap
need a pattern that overlaps itself (`isSelfOverlapping_of_occursAt`). A text is cut around the
occurrence that is counted first (`splitAround_eq_none_iff`, `not_occursAt_of_splitAround`).
-/

namespace SeededArt.Text

variable {pattern text : List Char} {i j : Nat}

/-- The text begins with the pattern at a position. -/
def OccursAt (pattern text : List Char) (i : Nat) : Prop := pattern <+: text.drop i

instance (pattern text : List Char) (i : Nat) : Decidable (OccursAt pattern text i) :=
  inferInstanceAs (Decidable (_ <+: _))

/-- A proper end of the pattern is a beginning of it. -/
def IsSelfOverlapping (pattern : List Char) : Prop :=
  ∃ k, 0 < k ∧ k < pattern.length ∧ pattern.drop k <+: pattern

instance (pattern : List Char) : Decidable (IsSelfOverlapping pattern) :=
  decidable_of_iff (∃ k < pattern.length, 0 < k ∧ pattern.drop k <+: pattern)
    (exists_congr fun _ => and_left_comm)

theorem isSome_afterStart?_iff : (afterStart? pattern text).isSome = true ↔ pattern <+: text := by
  rw [Option.isSome_iff_exists]
  simp only [afterStart?_eq_some_iff]
  exact exists_congr fun after => eq_comm

theorem not_occursAt_nil (hpattern : pattern ≠ []) : ¬OccursAt pattern [] i := by
  unfold OccursAt
  rw [List.drop_nil, List.prefix_nil]
  exact hpattern

theorem occursAt_drop {k : Nat} : OccursAt pattern (text.drop k) i ↔
    OccursAt pattern text (k + i) := by
  unfold OccursAt
  rw [List.drop_drop]

/-! ## Counting -/

theorem occurrencesFrom_eq (pattern : List Char) (skip : Nat) (text : List Char) :
    occurrencesFrom pattern skip text = occurrences pattern (text.drop skip) := by
  induction text generalizing skip with
  | nil =>
    rw [List.drop_nil, occurrences, occurrencesFrom, occurrencesFrom]
  | cons c text ih =>
    cases skip with
    | zero => rfl
    | succ skip => rw [occurrencesFrom, ih, List.drop_succ_cons]

theorem occurrences_of_prefix (hpattern : pattern ≠ []) (h : pattern <+: text) :
    occurrences pattern text = occurrences pattern (text.drop pattern.length) + 1 := by
  obtain ⟨p, ps, rfl⟩ := List.exists_cons_of_ne_nil hpattern
  obtain ⟨c, rest, rfl⟩ := List.exists_cons_of_ne_nil (h.ne_nil hpattern)
  rw [occurrences, occurrencesFrom, if_pos (isSome_afterStart?_iff.2 h), occurrencesFrom_eq]
  rfl

theorem occurrences_cons {c : Char} (h : ¬pattern <+: c :: text) :
    occurrences pattern (c :: text) = occurrences pattern text := by
  rw [occurrences, occurrencesFrom, if_neg (isSome_afterStart?_iff.not.2 h)]
  rfl

theorem occurrences_of_first (hpattern : pattern ≠ []) (h : OccursAt pattern text i)
    (hfirst : ∀ j < i, ¬OccursAt pattern text j) :
    occurrences pattern text = occurrences pattern (text.drop (i + pattern.length)) + 1 := by
  induction i generalizing text with
  | zero =>
    rw [Nat.zero_add]
    exact occurrences_of_prefix hpattern h
  | succ i ih =>
    cases text with
    | nil => exact absurd h (not_occursAt_nil hpattern)
    | cons c text =>
      have hstart : ¬pattern <+: c :: text := hfirst 0 (Nat.succ_pos i)
      rw [occurrences_cons hstart, ih h fun j hj => hfirst (j + 1) (Nat.succ_lt_succ hj),
        Nat.succ_add, List.drop_succ_cons]

theorem occurrences_eq_zero_iff (hpattern : pattern ≠ []) :
    occurrences pattern text = 0 ↔ ∀ i, ¬OccursAt pattern text i := by
  constructor
  · intro h
    by_contra hoccurs
    push Not at hoccurs
    rw [occurrences_of_first hpattern (Nat.find_spec hoccurs) fun j => Nat.find_min hoccurs] at h
    exact Nat.succ_ne_zero _ h
  · intro h
    induction text with
    | nil => rfl
    | cons c text ih =>
      rw [occurrences_cons (h 0)]
      exact ih fun i => h (i + 1)

/-- One occurrence is counted exactly if all occurrences overlap the first of them. -/
theorem occurrences_eq_one_iff (hpattern : pattern ≠ []) :
    occurrences pattern text = 1 ↔ ∃ i, OccursAt pattern text i ∧
      ∀ j, OccursAt pattern text j → i ≤ j ∧ j < i + pattern.length := by
  have hbehind {i : Nat} (h : OccursAt pattern text i)
      (hfirst : ∀ j < i, ¬OccursAt pattern text j) : occurrences pattern text = 1 ↔
        ∀ k, ¬OccursAt pattern text (i + pattern.length + k) := by
    rw [occurrences_of_first hpattern h hfirst, Nat.add_eq_right, occurrences_eq_zero_iff hpattern]
    simp only [occursAt_drop]
  constructor
  · intro h
    have hoccurs : ∃ i, OccursAt pattern text i := by
      by_contra hnone
      rw [(occurrences_eq_zero_iff hpattern).2 (not_exists.1 hnone)] at h
      cases h
    have hfirst : ∀ j < Nat.find hoccurs, ¬OccursAt pattern text j := fun j => Nat.find_min hoccurs
    have hnone := (hbehind (Nat.find_spec hoccurs) hfirst).1 h
    refine ⟨Nat.find hoccurs, Nat.find_spec hoccurs, fun j hj => ⟨?_, ?_⟩⟩
    · exact Nat.find_min' hoccurs hj
    · by_contra hfar
      obtain ⟨k, rfl⟩ := Nat.exists_eq_add_of_le (Nat.le_of_not_lt hfar)
      exact hnone k hj
  · rintro ⟨i, hi, hall⟩
    refine (hbehind hi fun j hj hoccurs => ?_).2 fun k hk => ?_
    · exact absurd (hall j hoccurs).1 (Nat.not_le.2 hj)
    · exact absurd (hall _ hk).2 (Nat.not_lt.2 (Nat.le_add_right _ k))

/-- Of two occurrences that overlap, the pattern overlaps itself. -/
theorem isSelfOverlapping_of_occursAt (hi : OccursAt pattern text i) (hj : OccursAt pattern text j)
    (hlt : i < j) (hoverlap : j < i + pattern.length) : IsSelfOverlapping pattern := by
  obtain ⟨k, rfl⟩ := Nat.exists_eq_add_of_lt hlt
  obtain ⟨rest, hrest⟩ := hi
  have hk : k + 1 < pattern.length := by omega
  refine ⟨k + 1, Nat.succ_pos k, hk, ?_⟩
  have hdrop : text.drop (i + k + 1) = pattern.drop (k + 1) ++ rest := by
    rw [Nat.add_assoc, ← List.drop_drop, ← hrest, List.drop_append_of_le_length (Nat.le_of_lt hk)]
  unfold OccursAt at hj
  rw [hdrop] at hj
  exact List.prefix_of_prefix_length_le (List.prefix_append _ rest) hj
    (by rw [List.length_drop]; omega)

theorem existsUnique_of_occurrences_eq_one (hpattern : pattern ≠ [])
    (hself : ¬IsSelfOverlapping pattern) (h : occurrences pattern text = 1) :
    ∃! i, OccursAt pattern text i := by
  obtain ⟨i, hi, hall⟩ := (occurrences_eq_one_iff hpattern).1 h
  refine ⟨i, hi, fun j hj => ?_⟩
  obtain ⟨hle, hlt⟩ := hall j hj
  by_contra hne
  exact hself (isSelfOverlapping_of_occursAt hi hj (Nat.lt_of_le_of_ne hle (Ne.symm hne)) hlt)

theorem occurrences_eq_one_of_existsUnique (hpattern : pattern ≠ [])
    (h : ∃! i, OccursAt pattern text i) : occurrences pattern text = 1 := by
  obtain ⟨i, hi, hunique⟩ := h
  refine (occurrences_eq_one_iff hpattern).2 ⟨i, hi, fun j hj => ?_⟩
  have hlength : 0 < pattern.length := List.length_pos_iff.2 hpattern
  have hji : j = i := hunique j hj
  omega

/-! ## Cutting at the first occurrence -/

theorem afterStart?_eq_none_iff : afterStart? pattern text = none ↔ ¬pattern <+: text := by
  rw [← isSome_afterStart?_iff, Bool.not_eq_true, Option.isSome_eq_false_iff,
    Option.isNone_iff_eq_none]

theorem splitAround_cons_of_start {c : Char} {after : List Char}
    (h : afterStart? pattern (c :: text) = some after) :
    splitAround pattern (c :: text) = some ([], after) := by
  rw [splitAround, h]

theorem splitAround_cons_of_later {c : Char} (h : ¬pattern <+: c :: text) :
    splitAround pattern (c :: text) =
      (splitAround pattern text).map fun (before, after) => (c :: before, after) := by
  rw [splitAround, afterStart?_eq_none_iff.2 h]

theorem splitAround_eq_none_iff :
    splitAround pattern text = none ↔ ∀ i, ¬OccursAt pattern text i := by
  induction text with
  | nil =>
    unfold OccursAt
    simp only [splitAround, Option.map_eq_none_iff, afterStart?_eq_none_iff, List.drop_nil,
      forall_const]
  | cons c text ih =>
    by_cases hstart : pattern <+: c :: text
    · obtain ⟨after, hafter⟩ := Option.isSome_iff_exists.1 (isSome_afterStart?_iff.2 hstart)
      rw [splitAround_cons_of_start hafter]
      exact iff_of_false (Option.some_ne_none _) fun hnone => hnone 0 hstart
    · rw [splitAround_cons_of_later hstart, Option.map_eq_none_iff, ih]
      refine ⟨fun hnone i => ?_, fun hnone i => hnone (i + 1)⟩
      cases i with
      | zero => exact hstart
      | succ i => exact hnone i

theorem not_occursAt_of_splitAround {before after : List Char}
    (h : splitAround pattern text = some (before, after)) (hj : j < before.length) :
    ¬OccursAt pattern text j := by
  induction text generalizing before j with
  | nil =>
    obtain ⟨rest, -, heq⟩ := Option.map_eq_some_iff.1 h
    obtain rfl : [] = before := congrArg Prod.fst heq
    exact absurd hj (Nat.not_lt_zero j)
  | cons c text ih =>
    by_cases hstart : pattern <+: c :: text
    · obtain ⟨rest, hrest⟩ := Option.isSome_iff_exists.1 (isSome_afterStart?_iff.2 hstart)
      rw [splitAround_cons_of_start hrest] at h
      cases h
      exact absurd hj (Nat.not_lt_zero j)
    · rw [splitAround_cons_of_later hstart] at h
      obtain ⟨⟨inner, rest⟩, hsplit, heq⟩ := Option.map_eq_some_iff.1 h
      cases heq
      cases j with
      | zero => exact hstart
      | succ j => exact ih hsplit (Nat.lt_of_succ_lt_succ hj)

end SeededArt.Text
