import SeededArt.Decimal.Layout
import SeededArt.Decimal.Numeral
import Mathlib.Data.List.TakeDrop
import Mathlib.Data.List.TakeWhile
/-!
# Constants read as numbers

`IsDecimal` is the form of a decimal: digits with at most one point after the first of them, an
exponent that may be negative, and a sign for the whole. Reading takes its parts apart, and every
finite number is written as one (`isDecimal_literal`), by digits, a point, an `e` and minus signs
alone.
-/

namespace SeededArt.Decimal

def AreDigits (cs : List Char) : Prop := ∀ c ∈ cs, c.isDigit = true

/-- No exponent, or one that has digits. -/
inductive IsExponent : List Char → Prop
  | absent : IsExponent []
  | present (negative : Bool) {digits : List Char} : digits ≠ [] → AreDigits digits →
      IsExponent ('e' :: ((if negative then ['-'] else []) ++ digits))

/-- A decimal without a sign. -/
inductive IsUnsigned : List Char → Prop
  | whole {whole exponent : List Char} : whole ≠ [] → AreDigits whole → IsExponent exponent →
      IsUnsigned (whole ++ exponent)
  | fractional {whole fraction exponent : List Char} : whole ≠ [] → AreDigits whole →
      AreDigits fraction → IsExponent exponent →
      IsUnsigned (whole ++ '.' :: (fraction ++ exponent))

def IsDecimal (cs : List Char) : Prop := IsUnsigned cs ∨ ∃ rest, cs = '-' :: rest ∧ IsUnsigned rest

def IsDecimalChar (c : Char) : Prop := c.isDigit = true ∨ c = '.' ∨ c = 'e' ∨ c = '-'

section Characters

variable {cs : List Char}

theorem AreDigits.isDecimalChar (h : AreDigits cs) : ∀ c ∈ cs, IsDecimalChar c := by
  intro c hc
  exact .inl (h c hc)

theorem IsExponent.isDecimalChar (h : IsExponent cs) : ∀ c ∈ cs, IsDecimalChar c := by
  cases h with
  | absent => exact List.forall_mem_nil _
  | present negative _ hdigits =>
    rw [List.forall_mem_cons, List.forall_mem_append]
    refine ⟨.inr (.inr (.inl rfl)), ?_, hdigits.isDecimalChar⟩
    cases negative with
    | true => exact List.forall_mem_singleton.2 (.inr (.inr (.inr rfl)))
    | false => exact List.forall_mem_nil _

theorem IsUnsigned.isDecimalChar (h : IsUnsigned cs) : ∀ c ∈ cs, IsDecimalChar c := by
  cases h with
  | whole _ hwhole hexp =>
    rw [List.forall_mem_append]
    exact ⟨hwhole.isDecimalChar, hexp.isDecimalChar⟩
  | fractional _ hwhole hfraction hexp =>
    rw [List.forall_mem_append, List.forall_mem_cons, List.forall_mem_append]
    exact ⟨hwhole.isDecimalChar, .inr (.inl rfl), hfraction.isDecimalChar, hexp.isDecimalChar⟩

theorem IsDecimal.isDecimalChar (h : IsDecimal cs) : ∀ c ∈ cs, IsDecimalChar c := by
  rcases h with h | ⟨rest, rfl, h⟩
  · exact h.isDecimalChar
  · exact List.forall_mem_cons.2 ⟨.inr (.inr (.inr rfl)), h.isDecimalChar⟩

end Characters

/-! ## Reading decimals -/

section Reading

variable {cs digits rest : List Char}

theorem spanDigits_append (hd : AreDigits digits) (hr : ∀ c ∈ rest.head?, c.isDigit = false) :
    spanDigits (digits ++ rest) = (digits, rest) := by
  unfold spanDigits
  rw [List.span_eq_takeWhile_dropWhile, List.takeWhile_append_of_pos hd,
    List.dropWhile_append_of_pos hd]
  cases rest with
  | nil => simp
  | cons c rest =>
    have hc : ¬ c.isDigit = true := by simp [hr c rfl]
    rw [List.takeWhile_cons_of_neg hc, List.dropWhile_cons_of_neg hc, List.append_nil]

theorem IsExponent.head_not_digit (h : IsExponent cs) : ∀ c ∈ cs.head?, c.isDigit = false := by
  cases h with
  | absent => simp
  | present => simp

theorem splitSign_of_digit {c : Char} (h : c.isDigit = true) (rest : List Char) :
    splitSign (c :: rest) = (false, c :: rest) := by
  unfold splitSign
  split
  next heq =>
    cases heq
    cases h
  next heq =>
    cases heq
    cases h
  next => rfl

theorem readExponent?_present (negative : Bool) (hne : digits ≠ []) (hdigits : AreDigits digits) :
    Numeral.readExponent? ('e' :: ((if negative then ['-'] else []) ++ digits)) =
      some (if negative then -(digitsValue digits : Int) else digitsValue digits) := by
  have hall : digits.all Char.isDigit = true := List.all_eq_true.2 hdigits
  have hsplit : splitSign ((if negative then ['-'] else []) ++ digits) = (negative, digits) := by
    cases negative with
    | true => rfl
    | false =>
      obtain ⟨c, rest, rfl⟩ := List.exists_cons_of_ne_nil hne
      exact splitSign_of_digit (hdigits c List.mem_cons_self) rest
  rw [Numeral.readExponent?]
  simp [hsplit, hne, hall]

section Parts

variable {whole fraction exponent : List Char} {negative : Bool}

theorem readDigits?_whole (hne : whole ≠ []) (hwhole : AreDigits whole)
    (hexp : IsExponent exponent) :
    Numeral.readDigits? negative (whole ++ exponent) =
      (Numeral.readExponent? exponent).map (.finite negative (digitsValue whole)) := by
  rw [Numeral.readDigits?, spanDigits_append hwhole hexp.head_not_digit]
  cases hexp with
  | absent => simp [hne]
  | present => simp [hne]

theorem readDigits?_fractional (hne : whole ≠ []) (hwhole : AreDigits whole)
    (hfraction : AreDigits fraction) (hexp : IsExponent exponent) :
    Numeral.readDigits? negative (whole ++ '.' :: (fraction ++ exponent)) =
      (Numeral.readExponent? exponent).map fun power =>
        .finite negative (digitsValue (whole ++ fraction)) (power - fraction.length) := by
  have hpoint : ∀ c ∈ ('.' :: (fraction ++ exponent)).head?, c.isDigit = false := by
    simp
  rw [Numeral.readDigits?, spanDigits_append hwhole hpoint]
  simp [spanDigits_append hfraction hexp.head_not_digit, hne]

end Parts

theorem IsUnsigned.exists_cons (h : IsUnsigned cs) :
    ∃ c rest, cs = c :: rest ∧ c.isDigit = true := by
  cases h with
  | whole hne hwhole =>
    obtain ⟨c, rest, rfl⟩ := List.exists_cons_of_ne_nil hne
    exact ⟨c, _, rfl, hwhole c List.mem_cons_self⟩
  | fractional hne hwhole =>
    obtain ⟨c, rest, rfl⟩ := List.exists_cons_of_ne_nil hne
    exact ⟨c, _, rfl, hwhole c List.mem_cons_self⟩

/-- A text that starts with a digit is not one of the words for infinity and not-a-number. -/
theorem ne_word_of_digit {c : Char} (h : c.isDigit = true) (rest : List Char) {word : String}
    {first : Char} (hword : word.toList.head? = some first) (hfirst : first.isDigit = false) :
    String.ofList ((c :: rest).map Char.toLower) ≠ word := by
  rintro rfl
  have hlower : c.toLower = c := by
    rw [Char.isDigit, Bool.and_eq_true, decide_eq_true_eq, decide_eq_true_eq] at h
    refine dif_neg ?_
    rintro ⟨hupper, -⟩
    exact absurd (UInt32.le_trans hupper h.2) (by decide)
  rw [String.toList_ofList, List.map_cons, List.head?_cons, hlower, Option.some.injEq] at hword
  rw [← hword, h] at hfirst
  cases hfirst

/-- What starts with a digit after its sign is read as digits. -/
theorem readChars?_of_splitSign {negative : Bool} {body : List Char}
    (hsplit : splitSign cs = (negative, body)) (hbody : IsUnsigned body) :
    Numeral.readChars? cs = Numeral.readDigits? negative body := by
  obtain ⟨c, rest, rfl, hc⟩ := hbody.exists_cons
  have hinf : String.ofList ((c :: rest).map Char.toLower) ≠ "inf" :=
    ne_word_of_digit hc rest rfl rfl
  have hinfinity : String.ofList ((c :: rest).map Char.toLower) ≠ "infinity" :=
    ne_word_of_digit hc rest rfl rfl
  have hnan : String.ofList ((c :: rest).map Char.toLower) ≠ "nan" :=
    ne_word_of_digit hc rest rfl rfl
  rw [Numeral.readChars?, hsplit]
  simp only [hinf, hinfinity, hnan, or_self, if_false]

theorem IsUnsigned.readChars?_eq (h : IsUnsigned cs) :
    Numeral.readChars? cs = Numeral.readDigits? false cs := by
  obtain ⟨c, rest, rfl, hc⟩ := h.exists_cons
  exact readChars?_of_splitSign (splitSign_of_digit hc rest) h

end Reading

/-! ## Writing decimals -/

section Writing

variable {digits : List Char}

theorem areDigits_toDigits (n : Nat) : AreDigits (Nat.toDigits 10 n) := by
  intro _ hc
  exact Nat.isDigit_of_mem_toDigits (by decide) (by decide) hc

theorem AreDigits.append {ds : List Char} (hd : AreDigits digits) (hs : AreDigits ds) :
    AreDigits (digits ++ ds) :=
  List.forall_mem_append.2 ⟨hd, hs⟩

theorem areDigits_replicate_zero (n : Nat) : AreDigits (List.replicate n '0') := by
  intro c hc
  rw [List.eq_of_mem_replicate hc]
  rfl

theorem toList_toString (n : Int) :
    (toString n).toList = (if decide (n < 0) then ['-'] else []) ++ Nat.toDigits 10 n.natAbs := by
  cases n with
  | ofNat n => exact Nat.toList_repr
  | negSucc n =>
    have hneg : decide (Int.negSucc n < 0) = true := decide_eq_true (Int.negSucc_lt_zero n)
    rw [hneg, if_pos rfl]
    show ("-" ++ (n + 1).repr).toList = ['-'] ++ Nat.toDigits 10 (n + 1)
    rw [String.toList_append, Nat.toList_repr]
    rfl

/-- An exponent is written without a plus sign. -/
theorem isExponent_toString (n : Int) : IsExponent ('e' :: (toString n).toList) := by
  rw [toList_toString]
  exact .present _ Nat.toDigits_ne_nil (areDigits_toDigits n.natAbs)

theorem isUnsigned_positionalText (hne : digits ≠ []) (hdigits : AreDigits digits)
    (places : Int) : IsUnsigned (Layout.literal.positionalText digits places) := by
  have hzero : AreDigits ['0'] := areDigits_replicate_zero 1
  rw [Layout.positionalText]
  split
  next =>
    have h := IsUnsigned.fractional (by simp) hzero
      ((areDigits_replicate_zero (-places).toNat).append hdigits) .absent
    simpa using h
  next hplaces =>
    split
    next hlength =>
      have h := IsUnsigned.fractional (by simp [hne])
        (hdigits.append (areDigits_replicate_zero (places.toNat - digits.length))) hzero .absent
      simpa [Layout.literal] using h
    next hlength =>
      have htake : digits.take places.toNat ≠ [] := by
        simp [hne]
        omega
      have hwhole : AreDigits (digits.take places.toNat) := by
        intro c hc
        exact hdigits c (List.mem_of_mem_take hc)
      have hfraction : AreDigits (digits.drop places.toNat) := by
        intro c hc
        exact hdigits c (List.mem_of_mem_drop hc)
      have h := IsUnsigned.fractional htake hwhole hfraction .absent
      simpa using h

theorem isUnsigned_scientificText (hne : digits ≠ []) (hdigits : AreDigits digits)
    (leading : Int) : IsUnsigned (Layout.literal.scientificText digits leading) := by
  have hexp := isExponent_toString leading
  have hsign : (if Layout.literal.exponentPlus && decide (0 ≤ leading) then ['+'] else []) =
      ([] : List Char) := rfl
  unfold Layout.scientificText
  simp only [hsign, List.nil_append]
  split
  next first second rest =>
    obtain ⟨hfirst, hrest⟩ := List.forall_mem_cons.1 hdigits
    have hwhole : AreDigits [first] := List.forall_mem_singleton.2 hfirst
    have h := IsUnsigned.fractional (by simp) hwhole hrest hexp
    simpa using h
  next => exact .whole hne hdigits hexp

theorem isUnsigned_scaledText (s : Scaled) : IsUnsigned (Layout.literal.scaledText s) := by
  have hne : Nat.toDigits 10 s.digits ≠ [] := Nat.toDigits_ne_nil
  have hdigits := areDigits_toDigits s.digits
  have hboth : ∀ (isPositional : Bool) (places leading : Int),
      IsUnsigned (if isPositional then
        Layout.literal.positionalText (Nat.toDigits 10 s.digits) places
      else Layout.literal.scientificText (Nat.toDigits 10 s.digits) leading) := by
    intro isPositional places leading
    cases isPositional with
    | true => exact isUnsigned_positionalText hne hdigits places
    | false => exact isUnsigned_scientificText hne hdigits leading
  exact hboth _ _ _

theorem isDecimal_literal (f : Format) (negative : Bool) (mantissa : Nat) (exponent : Int) :
    IsDecimal (Layout.literal.signedText f ⟨negative, .finite mantissa exponent⟩).toList := by
  have hsigned : ∀ {body : String}, IsUnsigned body.toList →
      IsDecimal ((if negative then "-" else "") ++ body).toList := by
    intro body hbody
    cases negative with
    | true => exact .inr ⟨body.toList, by simp, hbody⟩
    | false => exact .inl (by simpa using hbody)
  have hzero : IsUnsigned "0.0".toList :=
    .fractional (by simp) (areDigits_replicate_zero 1) (areDigits_replicate_zero 1) .absent
  unfold Layout.signedText
  cases mantissa with
  | zero => exact hsigned hzero
  | succ m =>
    refine hsigned ?_
    rw [String.toList_ofList]
    exact isUnsigned_scaledText _

end Writing

end SeededArt.Decimal
