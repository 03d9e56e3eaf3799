import SeededArt.Proofs.Decimal.Literal
import Mathlib.Tactic.FieldSimp
import Mathlib.Tactic.NormNum
import Mathlib.Tactic.Ring
/-!
# Decimals as texts

A decimal says a number by its digits, its point and its exponent (`SaysDecimal`), and it is read as
this number (`SaysDecimal.exists_readChars?`).

A decimal is written with a point or with an exponent, as the place of its leading digit decides
(`scaledText_literal`), and is read back with its own digits and power of ten; a whole number
without an exponent is read back with the zeros that follow its digits (`readChars?_scaledText`).
Below one, what is written is a constant with a point or an exponent (`isFloatConstant_scaledText`).
-/

namespace SeededArt.Decimal

/-! ## Digits and their value -/

theorem digitsValue_toDigits (n : ℕ) : digitsValue (Nat.toDigits 10 n) = n :=
  Nat.ofDigitChars_ten_toDigits

theorem digitsValue_zeros_append (k : ℕ) (digits : List Char) :
    digitsValue (List.replicate k '0' ++ digits) = digitsValue digits := by
  have h := Nat.ofDigitChars_append (b := 10) (l := List.replicate k '0') (m := digits) 0
  rwa [Nat.ofDigitChars_replicate_zero, Nat.mul_zero] at h

theorem digitsValue_append_zeros (digits : List Char) (k : ℕ) :
    digitsValue (digits ++ List.replicate k '0') = digitsValue digits * 10 ^ k := by
  have h := Nat.ofDigitChars_append (b := 10) (l := digits) (m := List.replicate k '0') 0
  rwa [Nat.ofDigitChars_replicate_zero, Nat.mul_comm] at h

theorem readExponent?_toString (n : ℤ) :
    Numeral.readExponent? ('e' :: (toString n).toList) = some n := by
  rw [toList_toString, readExponent?_present _ Nat.toDigits_ne_nil (areDigits_toDigits n.natAbs),
    digitsValue_toDigits]
  split
  next h =>
    have := of_decide_eq_true h
    congr 1
    omega
  next h =>
    have := of_decide_eq_false (Bool.eq_false_iff.2 h)
    congr 1
    omega

/-! ## The number that a text says -/

inductive SaysExponent : List Char → ℤ → Prop
  | absent : SaysExponent [] 0
  | plain {digits : List Char} : digits ≠ [] → AreDigits digits →
      SaysExponent ('e' :: digits) (Nat.ofDigitChars 10 digits 0)
  | minus {digits : List Char} : digits ≠ [] → AreDigits digits →
      SaysExponent ('e' :: '-' :: digits) (-(Nat.ofDigitChars 10 digits 0 : ℤ))

/-- What digits say: those after the point count as a fraction, and the exponent as a power of
ten. -/
inductive SaysUnsigned : List Char → ℚ → Prop
  | whole {whole exponent : List Char} {k : ℤ} : whole ≠ [] → AreDigits whole →
      SaysExponent exponent k →
      SaysUnsigned (whole ++ exponent) (Nat.ofDigitChars 10 whole 0 * 10 ^ k)
  | fractional {whole fraction exponent : List Char} {k : ℤ} : whole ≠ [] → AreDigits whole →
      AreDigits fraction → SaysExponent exponent k →
      SaysUnsigned (whole ++ '.' :: (fraction ++ exponent))
        ((Nat.ofDigitChars 10 whole 0 + Nat.ofDigitChars 10 fraction 0 / 10 ^ fraction.length) *
          10 ^ k)

/-- Whether a decimal has a minus sign, and what it says without the sign. -/
inductive SaysDecimal : List Char → Bool → ℚ → Prop
  | plain {cs : List Char} {q : ℚ} : SaysUnsigned cs q → SaysDecimal cs false q
  | minus {cs : List Char} {q : ℚ} : SaysUnsigned cs q → SaysDecimal ('-' :: cs) true q

section Says

variable {cs : List Char} {k : ℤ} {q : ℚ} {negative : Bool}

theorem IsExponent.exists_number (h : IsExponent cs) : ∃ k, SaysExponent cs k := by
  cases h with
  | absent => exact ⟨0, .absent⟩
  | present negative hne hdigits =>
    cases negative with
    | false => exact ⟨_, .plain hne hdigits⟩
    | true => exact ⟨_, .minus hne hdigits⟩

theorem IsDecimal.exists_number (h : IsDecimal cs) : ∃ negative q, SaysDecimal cs negative q := by
  have hunsigned : ∀ {cs : List Char}, IsUnsigned cs → ∃ q, SaysUnsigned cs q := by
    intro cs hcs
    cases hcs with
    | whole hne hwhole hexp =>
      obtain ⟨k, hk⟩ := hexp.exists_number
      exact ⟨_, .whole hne hwhole hk⟩
    | fractional hne hwhole hfraction hexp =>
      obtain ⟨k, hk⟩ := hexp.exists_number
      exact ⟨_, .fractional hne hwhole hfraction hk⟩
  rcases h with h | ⟨rest, rfl, h⟩
  · obtain ⟨q, hq⟩ := hunsigned h
    exact ⟨false, q, .plain hq⟩
  · obtain ⟨q, hq⟩ := hunsigned h
    exact ⟨true, q, .minus hq⟩

theorem SaysExponent.isExponent (h : SaysExponent cs k) : IsExponent cs := by
  cases h with
  | absent => exact .absent
  | plain hne hdigits => exact .present false hne hdigits
  | minus hne hdigits => exact .present true hne hdigits

theorem SaysUnsigned.isUnsigned (h : SaysUnsigned cs q) : IsUnsigned cs := by
  cases h with
  | whole hne hwhole hexp => exact .whole hne hwhole hexp.isExponent
  | fractional hne hwhole hfraction hexp =>
    exact .fractional hne hwhole hfraction hexp.isExponent

theorem SaysExponent.readExponent?_eq (h : SaysExponent cs k) :
    Numeral.readExponent? cs = some k := by
  cases h with
  | absent => rfl
  | plain hne hdigits => exact readExponent?_present false hne hdigits
  | minus hne hdigits => exact readExponent?_present true hne hdigits

/-- Digits on both sides of a point are read as one number. -/
theorem digitsValue_append (whole fraction : List Char) :
    digitsValue (whole ++ fraction) =
      10 ^ fraction.length * Nat.ofDigitChars 10 whole 0 + Nat.ofDigitChars 10 fraction 0 :=
  (Nat.ofDigitChars_append 0).trans Nat.ofDigitChars_eq_ofDigitChars_zero

theorem SaysUnsigned.exists_readDigits? (h : SaysUnsigned cs q) (negative : Bool) :
    ∃ d p, Numeral.readDigits? negative cs = some (.finite negative d p) ∧
      (d : ℚ) * 10 ^ p = q := by
  cases h with
  | whole hne hwhole hexp =>
    refine ⟨_, _, ?_, rfl⟩
    rw [readDigits?_whole hne hwhole hexp.isExponent, hexp.readExponent?_eq, Option.map_some]
    rfl
  | @fractional whole fraction exponent k hne hwhole hfraction hexp =>
    refine ⟨digitsValue (whole ++ fraction), k - fraction.length, ?_, ?_⟩
    · rw [readDigits?_fractional hne hwhole hfraction hexp.isExponent, hexp.readExponent?_eq,
        Option.map_some]
    · have hten : (10 : ℚ) ^ fraction.length ≠ 0 := pow_ne_zero _ (by norm_num)
      rw [digitsValue_append, zpow_sub₀ (by norm_num), zpow_natCast]
      push_cast
      field_simp

/-- A decimal is read as the number that it says. -/
theorem SaysDecimal.exists_readChars? (h : SaysDecimal cs negative q) :
    ∃ d p, Numeral.readChars? cs = some (.finite negative d p) ∧ (d : ℚ) * 10 ^ p = q := by
  cases h with
  | plain h =>
    rw [h.isUnsigned.readChars?_eq]
    exact h.exists_readDigits? false
  | minus h =>
    have hminus : ∀ rest, splitSign ('-' :: rest) = (true, rest) := fun _ => rfl
    rw [readChars?_of_splitSign (hminus _) h.isUnsigned]
    exact h.exists_readDigits? true

end Says

/-! ## Reading what was written -/

section Layouts

variable {digits : List Char}

theorem readDigits?_point {whole fraction : List Char} (hne : whole ≠ []) (hwhole : AreDigits whole)
    (hfraction : AreDigits fraction) :
    Numeral.readDigits? false (whole ++ '.' :: fraction) =
      some (.finite false (digitsValue (whole ++ fraction)) (-fraction.length)) := by
  have h : Numeral.readDigits? false (whole ++ '.' :: (fraction ++ [])) = _ :=
    readDigits?_fractional hne hwhole hfraction .absent
  rwa [List.append_nil, Numeral.readExponent?, Option.map_some, zero_sub] at h

/-- A point before or among the digits does not change the number. -/
theorem readChars?_positionalText_of_lt (hne : digits ≠ []) (hdigits : AreDigits digits)
    {places : ℤ} (h : places < digits.length) :
    Numeral.readChars? (Layout.literal.positionalText digits places) =
      some (.finite false (digitsValue digits) (places - digits.length)) := by
  rw [(isUnsigned_positionalText hne hdigits places).readChars?_eq, Layout.positionalText]
  split
  next hplaces =>
    have hzero : AreDigits ['0'] := areDigits_replicate_zero 1
    have hvalue : digitsValue (['0'] ++ (List.replicate (-places).toNat '0' ++ digits)) =
        digitsValue digits :=
      digitsValue_zeros_append ((-places).toNat + 1) digits
    refine (readDigits?_point (by simp) hzero
      ((areDigits_replicate_zero (-places).toNat).append hdigits)).trans ?_
    rw [hvalue, List.length_append, List.length_replicate]
    congr 2
    omega
  next hplaces =>
    have htake : digits.take places.toNat ≠ [] := by
      rw [ne_eq, List.take_eq_nil_iff]
      rintro (h | h)
      · omega
      · exact hne h
    rw [if_neg (by omega)]
    refine (readDigits?_point htake (fun c hc => hdigits c (List.mem_of_mem_take hc))
      (fun c hc => hdigits c (List.mem_of_mem_drop hc))).trans ?_
    rw [List.take_append_drop, List.length_drop]
    congr 2
    omega

/-- Digits of a whole number are filled up with zeros, of which one follows the point. -/
theorem readChars?_positionalText_of_le (hne : digits ≠ []) (hdigits : AreDigits digits)
    {places : ℤ} (h : digits.length ≤ places) :
    Numeral.readChars? (Layout.literal.positionalText digits places) =
      some (.finite false (digitsValue digits * 10 ^ ((places - digits.length).toNat + 1))
        (-1)) := by
  have hpos : 0 < digits.length := List.length_pos_iff.2 hne
  have hzero : AreDigits ['0'] := areDigits_replicate_zero 1
  have hcount : (places - digits.length).toNat = places.toNat - digits.length := by omega
  have hvalue : digitsValue (digits ++ List.replicate (places.toNat - digits.length) '0' ++ ['0']) =
      digitsValue digits * 10 ^ (places.toNat - digits.length + 1) := by
    rw [← digitsValue_append_zeros, List.replicate_succ', List.append_assoc]
  rw [(isUnsigned_positionalText hne hdigits places).readChars?_eq, Layout.positionalText,
    if_neg (by omega), if_pos (by omega), hcount, ← hvalue]
  exact readDigits?_point (by simp [hne]) (hdigits.append (areDigits_replicate_zero _)) hzero

theorem readChars?_scientificText (hne : digits ≠ []) (hdigits : AreDigits digits) (leading : ℤ) :
    Numeral.readChars? (Layout.literal.scientificText digits leading) =
      some (.finite false (digitsValue digits) (leading + 1 - digits.length)) := by
  have hexp := isExponent_toString leading
  rw [(isUnsigned_scientificText hne hdigits leading).readChars?_eq]
  unfold Layout.scientificText
  have hsign : (if Layout.literal.exponentPlus && decide (0 ≤ leading) then ['+'] else []) =
      ([] : List Char) := rfl
  simp only [hsign, List.nil_append]
  split
  next first second rest =>
    obtain ⟨hfirst, hrest⟩ := List.forall_mem_cons.1 hdigits
    have hwhole : AreDigits [first] := List.forall_mem_singleton.2 hfirst
    refine (readDigits?_fractional (by simp) hwhole hrest hexp).trans ?_
    rw [readExponent?_toString, Option.map_some, List.singleton_append, List.length_cons,
      List.length_cons, List.length_cons]
    congr 2
    push_cast
    ring
  next hshort =>
    have hlength : digits.length = 1 := by
      obtain ⟨first, rest, rfl⟩ := List.exists_cons_of_ne_nil hne
      cases rest with
      | nil => rfl
      | cons second rest => exact absurd rfl (hshort first second rest)
    rw [readDigits?_whole hne hdigits hexp, readExponent?_toString, Option.map_some, hlength,
      Nat.cast_one, add_sub_cancel_right]

/-- The power of ten of the leading digit. -/
def Scaled.leading (s : Scaled) : ℤ := s.power + (Nat.toDigits 10 s.digits).length - 1

/-- The leading digit decides whether an exponent is written. -/
theorem scaledText_literal (s : Scaled) :
    Layout.literal.scaledText s =
      if -4 ≤ s.leading ∧ s.leading < 16 then
        Layout.literal.positionalText (Nat.toDigits 10 s.digits) (s.leading + 1)
      else Layout.literal.scientificText (Nat.toDigits 10 s.digits) s.leading := by
  have hpositional : (decide (-4 ≤ s.leading) && decide (s.leading < 16)) = true ↔
      -4 ≤ s.leading ∧ s.leading < 16 := by
    rw [Bool.and_eq_true, decide_eq_true_iff, decide_eq_true_iff]
  exact if_congr hpositional rfl rfl

/-- The digits of a decimal read back, those of a whole number without an exponent with the zeros
after them. -/
theorem readChars?_scaledText (s : Scaled) :
    Numeral.readChars? (Layout.literal.scaledText s) =
      some (if 0 ≤ s.power ∧ s.leading < 16 then
        .finite false (s.digits * 10 ^ (s.power.toNat + 1)) (-1)
      else .finite false s.digits s.power) := by
  have hne : Nat.toDigits 10 s.digits ≠ [] := Nat.toDigits_ne_nil
  have hpos : 0 < (Nat.toDigits 10 s.digits).length := List.length_pos_iff.2 hne
  have hdigits := areDigits_toDigits s.digits
  have hpower : s.leading + 1 - (Nat.toDigits 10 s.digits).length = s.power := by
    rw [Scaled.leading, sub_add_cancel, add_sub_cancel_right]
  rw [scaledText_literal]
  by_cases hexponent : -4 ≤ s.leading ∧ s.leading < 16
  · rw [if_pos hexponent]
    by_cases hwhole : 0 ≤ s.power
    · rw [if_pos ⟨hwhole, hexponent.2⟩, readChars?_positionalText_of_le hne hdigits (by omega),
        digitsValue_toDigits, hpower]
    · rw [if_neg (fun h => hwhole h.1), readChars?_positionalText_of_lt hne hdigits (by omega),
        digitsValue_toDigits, hpower]
  · rw [if_neg hexponent, if_neg (by omega), readChars?_scientificText hne hdigits,
      digitsValue_toDigits, hpower]

end Layouts

/-! ## The form of constants below one -/

/-- Digits, then a point with digits, or an exponent with a minus sign and digits, or both: a number
that never reads as an integer. -/
inductive IsFloatConstant : List Char → Prop
  | pointed {whole fraction : List Char} : whole ≠ [] → AreDigits whole → fraction ≠ [] →
      AreDigits fraction → IsFloatConstant (whole ++ '.' :: fraction)
  | scaled {whole exponent : List Char} : whole ≠ [] → AreDigits whole → exponent ≠ [] →
      AreDigits exponent → IsFloatConstant (whole ++ 'e' :: '-' :: exponent)
  | both {whole fraction exponent : List Char} : whole ≠ [] → AreDigits whole → fraction ≠ [] →
      AreDigits fraction → exponent ≠ [] → AreDigits exponent →
      IsFloatConstant (whole ++ '.' :: (fraction ++ 'e' :: '-' :: exponent))

section Form

variable {digits : List Char}

theorem positionalText_of_nonpos (digits : List Char) {places : ℤ} (h : places ≤ 0) :
    Layout.literal.positionalText digits places =
      ['0'] ++ '.' :: (List.replicate (-places).toNat '0' ++ digits) :=
  if_pos h

theorem toList_toString_of_neg {n : ℤ} (h : n < 0) :
    (toString n).toList = '-' :: Nat.toDigits 10 n.natAbs := by
  rw [toList_toString, decide_eq_true h]
  rfl

theorem scientificText_cons (first second : Char) (rest : List Char) (leading : ℤ) :
    Layout.literal.scientificText (first :: second :: rest) leading =
      [first] ++ '.' :: (second :: rest ++ 'e' :: (toString leading).toList) := rfl

theorem scientificText_singleton (first : Char) (leading : ℤ) :
    Layout.literal.scientificText [first] leading = [first] ++ 'e' :: (toString leading).toList :=
  rfl

theorem isFloatConstant_scaledText {s : Scaled} (h : s.leading < 0) :
    IsFloatConstant (Layout.literal.scaledText s) := by
  have hne : Nat.toDigits 10 s.digits ≠ [] := Nat.toDigits_ne_nil
  have hdigits := areDigits_toDigits s.digits
  have hexponent : Nat.toDigits 10 s.leading.natAbs ≠ [] := Nat.toDigits_ne_nil
  rw [scaledText_literal]
  split
  next =>
    rw [positionalText_of_nonpos _ (by omega)]
    exact .pointed (by simp) (areDigits_replicate_zero 1) (by simp [hne])
      ((areDigits_replicate_zero _).append hdigits)
  next =>
    obtain ⟨first, rest, heq⟩ := List.exists_cons_of_ne_nil hne
    rw [heq] at hdigits ⊢
    obtain ⟨hfirst, hrest⟩ := List.forall_mem_cons.1 hdigits
    have hwhole : AreDigits [first] := List.forall_mem_singleton.2 hfirst
    cases rest with
    | nil =>
      rw [scientificText_singleton, toList_toString_of_neg h]
      exact .scaled (by simp) hwhole hexponent (areDigits_toDigits _)
    | cons second rest =>
      rw [scientificText_cons, toList_toString_of_neg h]
      exact .both (by simp) hwhole (by simp) hrest hexponent (areDigits_toDigits _)

/-- A decimal below one has an exponent exactly if its leading digit stands after the fourth
place. -/
theorem mem_scaledText_iff {s : Scaled} (h : s.leading < 0) :
    'e' ∈ Layout.literal.scaledText s ↔ s.leading < -4 := by
  have hnot {cs : List Char} (hcs : AreDigits cs) : 'e' ∉ cs := by
    intro he
    cases hcs 'e' he
  rw [scaledText_literal]
  split
  next hpositional =>
    rw [positionalText_of_nonpos _ (by omega)]
    refine iff_of_false ?_ (by omega)
    have hzeros := hnot (areDigits_replicate_zero (-(s.leading + 1)).toNat)
    have hdigits := hnot (areDigits_toDigits s.digits)
    simp only [List.cons_append, List.nil_append, List.mem_cons, List.mem_append, hzeros, hdigits]
    decide
  next hscientific =>
    refine iff_of_true ?_ (by omega)
    exact List.mem_append_right _ List.mem_cons_self

end Form

end SeededArt.Decimal
