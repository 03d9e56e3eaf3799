import SeededArt.Proofs.Decimal.Literal
/-!
# Characters of numbers

A text that reads as a number has digits, letters, a point and signs for characters and no others
(`isNumberChar_of_readChars?`). So there is no blank, no parenthesis and no comma in it.
-/

namespace SeededArt.Decimal

/-- A character that a number can have: a digit, a letter of an exponent or a word, a point or a
sign. -/
def IsNumberChar (c : Char) : Prop := c.isAlphanum = true ∨ c = '.' ∨ c = '+' ∨ c = '-'

theorem isNumberChar_of_isDigit {c : Char} (h : c.isDigit = true) : IsNumberChar c := by
  left
  rw [Char.isAlphanum, h, Bool.or_true]

theorem isNumberChar_of_isAlpha {c : Char} (h : c.isAlpha = true) : IsNumberChar c := by
  left
  rw [Char.isAlphanum, h, Bool.true_or]

/-- Only letters turn into letters. -/
theorem isAlpha_of_toLower {c : Char} (h : c.toLower.isAlpha = true) : c.isAlpha = true := by
  unfold Char.toLower at h
  split at h
  next hupper =>
    exact Bool.or_eq_true_iff.2 (.inl (decide_eq_true hupper))
  next => exact h

theorem isNumberChar_of_word {cs word : List Char} (h : cs.map Char.toLower = word)
    (hword : word.all Char.isAlpha = true) : ∀ c ∈ cs, IsNumberChar c := by
  intro c hc
  have hlower : c.toLower ∈ word := h ▸ List.mem_map_of_mem hc
  exact isNumberChar_of_isAlpha (isAlpha_of_toLower (List.all_eq_true.1 hword _ hlower))

section Parts

variable {cs : List Char}

/-- What `spanDigits` splits off is digits, and with the rest makes up the text. -/
theorem spanDigits_spec {digits rest : List Char} (h : spanDigits cs = (digits, rest)) :
    cs = digits ++ rest ∧ ∀ c ∈ digits, IsNumberChar c := by
  unfold spanDigits at h
  rw [List.span_eq_takeWhile_dropWhile] at h
  cases h
  refine ⟨List.takeWhile_append_dropWhile.symm, fun c hc => ?_⟩
  exact isNumberChar_of_isDigit (List.mem_takeWhile_imp hc)

theorem splitSign_spec {negative : Bool} {rest : List Char} (h : splitSign cs = (negative, rest)) :
    ∃ sign, cs = sign ++ rest ∧ ∀ c ∈ sign, IsNumberChar c := by
  unfold splitSign at h
  split at h
  next =>
    cases h
    exact ⟨['-'], rfl, List.forall_mem_singleton.2 (.inr (.inr (.inr rfl)))⟩
  next =>
    cases h
    exact ⟨['+'], rfl, List.forall_mem_singleton.2 (.inr (.inr (.inl rfl)))⟩
  next =>
    cases h
    exact ⟨[], rfl, List.forall_mem_nil _⟩

theorem isNumberChar_of_readExponent? {n : Int} (h : Numeral.readExponent? cs = some n) :
    ∀ c ∈ cs, IsNumberChar c := by
  cases cs with
  | nil => exact List.forall_mem_nil _
  | cons e rest =>
    obtain ⟨negative, digits, hsplit⟩ : ∃ negative digits, splitSign rest = (negative, digits) :=
      ⟨_, _, rfl⟩
    obtain ⟨sign, rfl, hsign⟩ := splitSign_spec hsplit
    rw [Numeral.readExponent?, hsplit, Option.ite_none_right_eq_some] at h
    obtain ⟨he, h⟩ := h
    rw [Option.ite_none_right_eq_some, List.all_eq_true] at h
    rw [List.forall_mem_cons, List.forall_mem_append]
    refine ⟨isNumberChar_of_isAlpha ?_, hsign, fun c hc => isNumberChar_of_isDigit (h.1.2 c hc)⟩
    rcases he with rfl | rfl <;> rfl

theorem isNumberChar_of_readDigits? {negative : Bool} {n : Numeral}
    (h : Numeral.readDigits? negative cs = some n) : ∀ c ∈ cs, IsNumberChar c := by
  obtain ⟨whole, rest, hspan⟩ : ∃ whole rest, spanDigits cs = (whole, rest) := ⟨_, _, rfl⟩
  obtain ⟨rfl, hwhole⟩ := spanDigits_spec hspan
  simp only [Numeral.readDigits?, hspan, Option.ite_none_left_eq_some,
    Option.map_eq_some_iff] at h
  obtain ⟨-, power, hexponent, -⟩ := h
  rw [List.forall_mem_append]
  refine ⟨hwhole, ?_⟩
  split at hexponent
  next tail =>
    obtain ⟨fraction, exponent, hspan⟩ : ∃ fraction exponent,
        spanDigits tail = (fraction, exponent) := ⟨_, _, rfl⟩
    obtain ⟨rfl, hfraction⟩ := spanDigits_spec hspan
    rw [hspan] at hexponent
    rw [List.forall_mem_cons, List.forall_mem_append]
    exact ⟨.inr (.inl rfl), hfraction, isNumberChar_of_readExponent? hexponent⟩
  next => exact isNumberChar_of_readExponent? hexponent

theorem isNumberChar_of_readChars? {n : Numeral} (h : Numeral.readChars? cs = some n) :
    ∀ c ∈ cs, IsNumberChar c := by
  obtain ⟨negative, body, hsplit⟩ : ∃ negative body, splitSign cs = (negative, body) :=
    ⟨_, _, rfl⟩
  obtain ⟨sign, rfl, hsign⟩ := splitSign_spec hsplit
  have hletters {word : String} (hbody : String.ofList (body.map Char.toLower) = word)
      (hword : word.toList.all Char.isAlpha = true) : ∀ c ∈ body, IsNumberChar c := by
    refine isNumberChar_of_word ?_ hword
    rw [← hbody, String.toList_ofList]
  rw [List.forall_mem_append]
  refine ⟨hsign, ?_⟩
  simp only [Numeral.readChars?, hsplit] at h
  split at h
  next hword =>
    rcases hword with hword | hword
    · exact hletters hword (by decide)
    · exact hletters hword (by decide)
  next =>
    split at h
    next hword => exact hletters hword (by decide)
    next => exact isNumberChar_of_readDigits? h

end Parts

end SeededArt.Decimal
