import SeededArt.Proofs.Text.Blank
/-!
# The words of a text

Blanks before a text change none of its words (`words_append_of_blanks`), and a run without a blank
is a word once a blank or the end follows (`words_append_of_word`). So words stand in a text in
their order, with blanks around them and at least one between two (`words_eq_pair_iff`).
-/

namespace SeededArt.Text

variable {cs w v before : List Char}

/-- Whether a text is a single word. -/
def IsWord (w : List Char) : Prop := w ≠ [] ∧ ∀ c ∈ w, isBlank c = false

/-- The word begun before a text goes on up to the first blank of it. -/
theorem wordsFrom_eq (hw : w ≠ []) (cs : List Char) :
    wordsFrom w cs =
      (w.reverse ++ cs.takeWhile (!isBlank ·)) :: words (cs.dropWhile (!isBlank ·)) := by
  induction cs generalizing w with
  | nil =>
    rw [wordsFrom, if_neg hw, List.takeWhile_nil, List.append_nil]
    rfl
  | cons c cs ih =>
    rw [wordsFrom]
    cases hc : isBlank c with
    | false =>
      rw [if_neg Bool.false_ne_true, ih (List.cons_ne_nil c w),
        List.takeWhile_cons_of_pos (by simp [hc]), List.dropWhile_cons_of_pos (by simp [hc]),
        List.reverse_cons, List.append_assoc]
      rfl
    | true =>
      rw [if_pos rfl, if_neg hw, List.takeWhile_cons_of_neg (by simp [hc]),
        List.dropWhile_cons_of_neg (by simp [hc]), List.append_nil, words, wordsFrom, if_pos hc,
        if_pos rfl]

theorem words_cons_blank {c : Char} (hc : isBlank c = true) : words (c :: cs) = words cs := by
  rw [words, wordsFrom, if_pos hc, if_pos rfl]
  rfl

theorem words_cons_word {c : Char} (hc : isBlank c = false) :
    words (c :: cs) = (c :: cs.takeWhile (!isBlank ·)) :: words (cs.dropWhile (!isBlank ·)) := by
  rw [words, wordsFrom, hc, if_neg Bool.false_ne_true, wordsFrom_eq (List.cons_ne_nil c [])]
  rfl

theorem words_append_of_blanks (h : ∀ c ∈ before, isBlank c = true) :
    words (before ++ cs) = words cs := by
  induction before with
  | nil => rfl
  | cons c before ih =>
    rw [List.forall_mem_cons] at h
    rw [List.cons_append, words_cons_blank h.1, ih h.2]

theorem words_eq_nil_iff : words cs = [] ↔ ∀ c ∈ cs, isBlank c = true := by
  constructor
  · intro h
    induction cs with
    | nil => exact List.forall_mem_nil _
    | cons c cs ih =>
      cases hc : isBlank c with
      | false =>
        rw [words_cons_word hc] at h
        cases h
      | true =>
        rw [words_cons_blank hc] at h
        exact List.forall_mem_cons.2 ⟨hc, ih h⟩
  · intro h
    rw [← List.append_nil cs, words_append_of_blanks h]
    rfl

/-- A run without a blank is a word if a blank or nothing follows. -/
theorem words_append_of_word (hw : IsWord w) (hcs : ∀ c ∈ cs.head?, isBlank c = true) :
    words (w ++ cs) = w :: words cs := by
  obtain ⟨hne, hword⟩ := hw
  obtain ⟨c, w, rfl⟩ := List.exists_cons_of_ne_nil hne
  rw [List.forall_mem_cons] at hword
  have hrun : ∀ d ∈ w, (!isBlank d) = true := fun d hd => by simp [hword.2 d hd]
  have htake : cs.takeWhile (!isBlank ·) = [] := by
    cases cs with
    | nil => rfl
    | cons d cs => exact List.takeWhile_cons_of_neg (by simp [hcs d rfl])
  have hdrop : cs.dropWhile (!isBlank ·) = cs := by
    cases cs with
    | nil => rfl
    | cons d cs => exact List.dropWhile_cons_of_neg (by simp [hcs d rfl])
  rw [List.cons_append, words_cons_word hword.1, List.takeWhile_append_of_pos hrun,
    List.dropWhile_append_of_pos hrun, htake, hdrop, List.append_nil]

/-- The first word of a text stands behind blanks, and a blank or the end behind it. -/
theorem words_eq_cons_iff {ws : List (List Char)} :
    words cs = w :: ws ↔ ∃ before after, cs = before ++ (w ++ after) ∧
      (∀ c ∈ before, isBlank c = true) ∧ IsWord w ∧ (∀ c ∈ after.head?, isBlank c = true) ∧
        words after = ws := by
  constructor
  · intro h
    induction cs with
    | nil => cases h
    | cons c cs ih =>
      cases hc : isBlank c with
      | false =>
        rw [words_cons_word hc, List.cons.injEq] at h
        obtain ⟨rfl, hws⟩ := h
        refine ⟨[], cs.dropWhile (!isBlank ·), ?_, List.forall_mem_nil _,
          ⟨List.cons_ne_nil _ _, ?_⟩, ?_, hws⟩
        · rw [List.nil_append, List.cons_append, List.takeWhile_append_dropWhile]
        · refine List.forall_mem_cons.2 ⟨hc, fun d hd => ?_⟩
          simpa using List.mem_takeWhile_imp hd
        · intro d hd
          have hhead := List.head?_dropWhile_not (!isBlank ·) cs
          rw [Option.mem_def.1 hd] at hhead
          simpa using hhead
      | true =>
        rw [words_cons_blank hc] at h
        obtain ⟨before, after, rfl, hbefore, hrest⟩ := ih h
        exact ⟨c :: before, after, rfl, List.forall_mem_cons.2 ⟨hc, hbefore⟩, hrest⟩
  · rintro ⟨before, after, rfl, hbefore, hw, hafter, rfl⟩
    rw [words_append_of_blanks hbefore, words_append_of_word hw hafter]

theorem words_eq_pair_iff :
    words cs = [v, w] ↔ ∃ indent gap space, cs = indent ++ (v ++ (gap ++ (w ++ space))) ∧
      gap ≠ [] ∧ (∀ c ∈ indent ++ (gap ++ space), isBlank c = true) ∧ IsWord v ∧ IsWord w := by
  simp only [words_eq_cons_iff, words_eq_nil_iff, List.forall_mem_append]
  constructor
  · rintro ⟨indent, -, rfl, hindent, hv, hgap, gap, space, rfl, hblank, hw, -, hspace⟩
    refine ⟨indent, gap, space, rfl, ?_, ⟨hindent, hblank, hspace⟩, hv, hw⟩
    rintro rfl
    obtain ⟨hne, hword⟩ := hw
    obtain ⟨c, w, rfl⟩ := List.exists_cons_of_ne_nil hne
    have hc := hgap c rfl
    rw [hword c List.mem_cons_self] at hc
    exact Bool.false_ne_true hc
  · rintro ⟨indent, gap, space, rfl, hgap, ⟨hindent, hblank, hspace⟩, hv, hw⟩
    obtain ⟨d, gap, rfl⟩ := List.exists_cons_of_ne_nil hgap
    refine ⟨indent, _, rfl, hindent, hv, ?_, d :: gap, space, rfl, hblank, hw, ?_, hspace⟩
    · rintro c ⟨⟩
      exact hblank _ List.mem_cons_self
    · intro c hc
      exact hspace c (List.mem_of_mem_head? hc)

end SeededArt.Text
