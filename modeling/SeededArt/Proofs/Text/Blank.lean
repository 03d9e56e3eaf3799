import SeededArt.Text.Blank
import Mathlib.Data.List.DropRight
import Mathlib.Data.List.TakeWhile
/-!
# Texts without blanks at their ends

A text is what `trim` leaves of it, between two runs of blanks (`exists_eq_append_trim`), and what
stands between blanks with no blank at its own ends is what `trim` leaves (`trim_append`). No
character between `!` and `~` is a blank.
-/

namespace SeededArt.Text

theorem isBlank_of_range {c : Char} (hlow : 0x20 < c.toNat) (hhigh : c.toNat < 0x85) :
    isBlank c = false := by
  simp only [isBlank, inRanges, blankRanges, List.any_cons, List.any_nil, Bool.or_false,
    Bool.or_eq_false_iff, Bool.and_eq_false_iff, decide_eq_false_iff_not]
  omega

theorem isBlank_space : isBlank ' ' = true := by decide

/-- Whether neither end of a text is a blank. -/
def Trimmed (cs : List Char) : Prop :=
  (∀ c ∈ cs.head?, isBlank c = false) ∧ ∀ c ∈ cs.getLast?, isBlank c = false

theorem dropWhile_of_head {cs : List Char} (h : ∀ c ∈ cs.head?, isBlank c = false) :
    cs.dropWhile isBlank = cs := by
  cases cs with
  | nil => rfl
  | cons c cs => rw [List.dropWhile_cons_of_neg (by simp [h c rfl])]

theorem head_dropWhile (cs : List Char) :
    ∀ c ∈ (cs.dropWhile isBlank).head?, isBlank c = false := by
  intro c hc
  have h := List.head?_dropWhile_not isBlank cs
  rw [Option.mem_def.1 hc] at h
  simpa using h

theorem trim_eq_nil_iff {cs : List Char} : trim cs = [] ↔ ∀ c ∈ cs, isBlank c = true := by
  unfold trim
  rw [trimRight, List.reverse_eq_nil_iff, List.dropWhile_eq_nil_iff]
  simp only [List.mem_reverse, trimLeft]
  constructor
  · intro h c hc
    rw [← List.takeWhile_append_dropWhile (p := isBlank) (l := cs), List.mem_append] at hc
    rcases hc with hc | hc
    · exact List.mem_takeWhile_imp hc
    · exact h c hc
  · intro h c hc
    exact h c ((List.dropWhile_sublist isBlank).mem hc)

theorem trimmed_trim (cs : List Char) : Trimmed (trim cs) := by
  constructor
  · intro c hc
    have hprefix : trim cs <+: trimLeft cs := List.rdropWhile_prefix isBlank _
    obtain ⟨after, hafter⟩ := hprefix
    refine head_dropWhile cs c ?_
    show c ∈ (trimLeft cs).head?
    rw [← hafter, List.head?_append, Option.mem_def.1 hc]
    rfl
  · rw [trim, trimRight, List.getLast?_reverse]
    exact head_dropWhile (trimLeft cs).reverse

/-- A text is what trimming leaves of it, between blanks. -/
theorem exists_eq_append_trim (cs : List Char) :
    ∃ before after, cs = before ++ (trim cs ++ after) ∧ (∀ c ∈ before, isBlank c = true) ∧
      ∀ c ∈ after, isBlank c = true := by
  refine ⟨cs.takeWhile isBlank, ((trimLeft cs).reverse.takeWhile isBlank).reverse, ?_, ?_, ?_⟩
  · have hright : trim cs ++ ((trimLeft cs).reverse.takeWhile isBlank).reverse = trimLeft cs := by
      rw [trim, trimRight, ← List.reverse_append, List.takeWhile_append_dropWhile,
        List.reverse_reverse]
    rw [hright, trimLeft, List.takeWhile_append_dropWhile]
  · intro c hc
    exact List.mem_takeWhile_imp hc
  · intro c hc
    exact List.mem_takeWhile_imp (List.mem_reverse.1 hc)

theorem trim_append {before core after : List Char} (hbefore : ∀ c ∈ before, isBlank c = true)
    (hcore : Trimmed core) (hafter : ∀ c ∈ after, isBlank c = true) :
    trim (before ++ (core ++ after)) = core := by
  cases core with
  | nil =>
    rw [trim_eq_nil_iff, List.forall_mem_append]
    exact ⟨hbefore, hafter⟩
  | cons c core =>
    have hleft : trimLeft (before ++ (c :: core ++ after)) = c :: core ++ after := by
      rw [trimLeft, List.dropWhile_append_of_pos hbefore]
      exact dropWhile_of_head hcore.1
    have hlast : ∀ d ∈ (c :: core).reverse.head?, isBlank d = false := by
      rw [List.head?_reverse]
      exact hcore.2
    have hreverse : ∀ d ∈ after.reverse, isBlank d = true := by
      intro d hd
      exact hafter d (List.mem_reverse.1 hd)
    rw [trim, hleft, trimRight, List.reverse_append, List.dropWhile_append_of_pos hreverse,
      dropWhile_of_head hlast, List.reverse_reverse]

theorem trim_eq_self {cs : List Char} (h : Trimmed cs) : trim cs = cs := by
  have hempty : ∀ c ∈ ([] : List Char), isBlank c = true := List.forall_mem_nil _
  simpa using trim_append hempty h hempty

theorem trim_cons_blank {c : Char} (h : isBlank c = true) (cs : List Char) :
    trim (c :: cs) = trim cs := by
  unfold trim
  rw [trimLeft, List.dropWhile_cons_of_pos h]
  rfl

theorem Trimmed.of_forall {cs : List Char} (h : ∀ c ∈ cs, isBlank c = false) : Trimmed cs :=
  ⟨fun c hc => h c (List.mem_of_mem_head? hc), fun c hc => h c (List.mem_of_getLast? hc)⟩

theorem trimmed_of_ends {c d : Char} (hc : isBlank c = false) (hd : isBlank d = false)
    (cs : List Char) : Trimmed (c :: (cs ++ [d])) := by
  refine ⟨?_, ?_⟩
  · rintro x ⟨⟩
    exact hc
  · rw [← List.cons_append, List.getLast?_concat]
    rintro x ⟨⟩
    exact hd

theorem trim_ne_nil {c : Char} (h : isBlank c = false) (cs : List Char) : trim (c :: cs) ≠ [] := by
  intro hnil
  have hc := trim_eq_nil_iff.1 hnil c List.mem_cons_self
  rw [h] at hc
  exact Bool.false_ne_true hc

end SeededArt.Text
