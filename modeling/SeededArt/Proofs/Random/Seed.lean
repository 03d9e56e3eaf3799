import Mathlib.Algebra.BigOperators.Fin
import Mathlib.Tactic.Ring
import SeededArt.Random.Seed
/-!
# The hash of a seed text

The hash of a text is a polynomial in 31 over its UTF-16 units, reduced modulo `2 ^ 32` at every
step. One reduction at the end gives the same (`toNat_foldl_mixUnit`), and so does arithmetic with
signs (`toInt32_foldl_mixUnit`). So the hash of a text that goes on is found from the hashes of its
two parts (`seedHash_polynomial`).

The units of a text are its encoding: they can be read back (`readUnits16_textUnits16`).
-/

namespace SeededArt.Random

variable {c : Char}

/-! ## Units -/

/-- No character has the number of a surrogate. -/
theorem toNat_lt_or (c : Char) : c.toNat < 0xD800 ∨ 0xDFFF < c.toNat ∧ c.toNat < 0x110000 :=
  c.valid

theorem units16_of_le (h : c.toNat ≤ 0xFFFF) : units16 c = [c.val] := by
  have hle : c.val ≤ 0xFFFF := UInt32.le_iff_toNat_le.2 h
  exact if_pos hle

/-- A character above the first plane has a high surrogate and a low one. -/
theorem units16_of_lt (h : 0xFFFF < c.toNat) :
    ∃ high low : UInt32, units16 c = [high, low] ∧
      high.toNat = 0xD800 + (c.toNat - 0x10000) / 0x400 ∧
      low.toNat = 0xDC00 + (c.toNat - 0x10000) % 0x400 := by
  have hvalid := toNat_lt_or c
  have hnot : ¬c.val ≤ 0xFFFF := fun hle => Nat.not_le.2 h (UInt32.le_iff_toNat_le.1 hle)
  have hsub : (c.val - 0x10000).toNat = c.toNat - 0x10000 :=
    UInt32.toNat_sub_of_le _ _ (UInt32.le_iff_toNat_le.2 h)
  refine ⟨0xD800 + (c.val - 0x10000) / 0x400, 0xDC00 + (c.val - 0x10000) % 0x400, if_neg hnot, ?_,
    ?_⟩
  · rw [UInt32.toNat_add, UInt32.toNat_div, hsub]
    show (0xD800 + (c.toNat - 0x10000) / 0x400) % 2 ^ 32 = _
    omega
  · rw [UInt32.toNat_add, UInt32.toNat_mod, hsub]
    show (0xDC00 + (c.toNat - 0x10000) % 0x400) % 2 ^ 32 = _
    omega

/-- The characters that UTF-16 units stand for. A high surrogate makes one with the next unit. -/
def readUnits16 : List UInt32 → List Char
  | [] => []
  | [unit] => [Char.ofNat unit.toNat]
  | unit :: next :: rest =>
    if 0xD800 ≤ unit.toNat ∧ unit.toNat < 0xDC00 then
      Char.ofNat (0x10000 + (unit.toNat - 0xD800) * 0x400 + (next.toNat - 0xDC00)) ::
        readUnits16 rest
    else Char.ofNat unit.toNat :: readUnits16 (next :: rest)

theorem readUnits16_units16_append (c : Char) (rest : List UInt32) :
    readUnits16 (units16 c ++ rest) = c :: readUnits16 rest := by
  rcases Nat.lt_or_ge 0xFFFF c.toNat with hc | hc
  · obtain ⟨high, low, hunits, hhigh, hlow⟩ := units16_of_lt hc
    have hvalid := toNat_lt_or c
    have hjoined : 0x10000 + (high.toNat - 0xD800) * 0x400 + (low.toNat - 0xDC00) = c.toNat := by
      omega
    rw [hunits, List.cons_append, List.cons_append, List.nil_append, readUnits16,
      if_pos (by omega), hjoined, Char.ofNat_toNat]
  · have hvalid := toNat_lt_or c
    have hplain : ¬(0xD800 ≤ c.toNat ∧ c.toNat < 0xDC00) := by omega
    rw [units16_of_le hc, List.singleton_append]
    cases rest with
    | nil => rw [readUnits16, readUnits16, Char.toNat_val, Char.ofNat_toNat]
    | cons next rest => rw [readUnits16, Char.toNat_val, if_neg hplain, Char.ofNat_toNat]

/-- The units of a text are read back as the text. -/
theorem readUnits16_textUnits16 (text : String) :
    readUnits16 (textUnits16 text) = text.toList := by
  unfold textUnits16
  induction text.toList with
  | nil => rfl
  | cons c cs ih => rw [List.flatMap_cons, readUnits16_units16_append, ih]

theorem lt_of_mem_textUnits16 {text : String} {unit : UInt32} (h : unit ∈ textUnits16 text) :
    unit.toNat < 2 ^ 16 := by
  obtain ⟨c, -, hunit⟩ := List.mem_flatMap.1 h
  rcases Nat.lt_or_ge 0xFFFF c.toNat with hc | hc
  · obtain ⟨high, low, hunits, hhigh, hlow⟩ := units16_of_lt hc
    have hvalid := toNat_lt_or c
    rw [hunits, List.mem_pair] at hunit
    rcases hunit with rfl | rfl
    · omega
    · omega
  · rw [units16_of_le hc, List.mem_singleton] at hunit
    rw [hunit, Char.toNat_val]
    omega

/-- Every character has a unit, and those above the first plane have another one. -/
theorem length_textUnits16 (text : String) :
    (textUnits16 text).length = text.length + text.toList.countP fun c => 0xFFFF < c.toNat := by
  rw [← String.length_toList]
  unfold textUnits16
  induction text.toList with
  | nil => rfl
  | cons c cs ih =>
    rw [List.flatMap_cons, List.length_append, ih, List.length_cons, List.countP_cons]
    rcases Nat.lt_or_ge 0xFFFF c.toNat with hc | hc
    · obtain ⟨high, low, hunits, -, -⟩ := units16_of_lt hc
      rw [hunits, if_pos (decide_eq_true hc), List.length_cons, List.length_singleton]
      omega
    · rw [units16_of_le hc, if_neg (by simpa using hc), List.length_singleton]
      omega

/-! ## Hashes -/

/-- The polynomial in 31 whose coefficients are units, the last of them the constant one. -/
def polynomial (units : List UInt32) : ℕ :=
  ∑ i : Fin units.length, units[i].toNat * 31 ^ (units.length - (i + 1))

theorem polynomial_cons (unit : UInt32) (units : List UInt32) :
    polynomial (unit :: units) = unit.toNat * 31 ^ units.length + polynomial units := by
  have hsplit := Fin.sum_univ_succ fun i : Fin (units.length + 1) =>
    (unit :: units)[i].toNat * 31 ^ (units.length + 1 - (i + 1))
  refine hsplit.trans ?_
  simp only [Fin.val_succ, Nat.add_sub_add_right]
  rfl

/-- Reducing at the end gives the same as reducing at every step. -/
theorem toNat_foldl_mixUnit (hash : UInt32) (units : List UInt32) :
    (units.foldl mixUnit hash).toNat =
      (hash.toNat * 31 ^ units.length + polynomial units) % 2 ^ 32 := by
  induction units generalizing hash with
  | nil =>
    have hempty : polynomial [] = 0 := Fin.sum_univ_zero _
    rw [List.foldl_nil, hempty, List.length_nil, pow_zero, Nat.mul_one, Nat.add_zero,
      Nat.mod_eq_of_lt hash.toNat_lt]
  | cons unit units ih =>
    have hstep : (mixUnit hash unit).toNat = (hash.toNat * 31 + unit.toNat) % 2 ^ 32 := by
      rw [mixUnit, UInt32.toNat_add, UInt32.toNat_mul]
      exact Nat.mod_add_mod _ _ _
    have hexpand : hash.toNat * 31 ^ (units.length + 1) +
        (unit.toNat * 31 ^ units.length + polynomial units) =
          (hash.toNat * 31 + unit.toNat) * 31 ^ units.length + polynomial units := by
      ring
    rw [List.foldl_cons, ih, hstep, polynomial_cons, List.length_cons, hexpand, Nat.add_mod,
      Nat.mod_mul_mod, ← Nat.add_mod]

/-- One more unit mixed into a hash with a sign. -/
def mixSigned (hash : Int32) (unit : UInt32) : Int32 := hash * 31 + unit.toInt32

/-- The hash of a text, in arithmetic with signs. -/
def signedHash (text : String) : Int32 := (textUnits16 text).foldl mixSigned 0

theorem toInt32_foldl_mixUnit (hash : UInt32) (units : List UInt32) :
    (units.foldl mixUnit hash).toInt32 = units.foldl mixSigned hash.toInt32 := by
  induction units generalizing hash with
  | nil => rfl
  | cons unit units ih =>
    rw [List.foldl_cons, List.foldl_cons, ih, mixUnit, UInt32.toInt32_add, UInt32.toInt32_mul]
    rfl

theorem toUInt32_signedHash (text : String) : (signedHash text).toUInt32 = seedHash text := by
  have hsigned : (seedHash text).toInt32 = signedHash text := toInt32_foldl_mixUnit 0 _
  rw [← hsigned, UInt32.toUInt32_toInt32]

theorem toNat_seedHash (text : String) :
    (seedHash text).toNat = polynomial (textUnits16 text) % 2 ^ 32 := by
  have hzero : (0 : UInt32).toNat = 0 := rfl
  rw [seedHash, toNat_foldl_mixUnit, hzero, Nat.zero_mul, Nat.zero_add]

theorem toNat_seedHash_append (s t : String) :
    (seedHash (s ++ t)).toNat =
      ((seedHash s).toNat * 31 ^ (textUnits16 t).length + (seedHash t).toNat) % 2 ^ 32 := by
  rw [toNat_seedHash t, Nat.add_mod_mod, ← toNat_foldl_mixUnit, seedHash, textUnits16_append,
    List.foldl_append]
  rfl

/-- The hash of a text is the polynomial over its units, modulo `2 ^ 32`, with or without signs.
The units are the UTF-16 encoding of the text: it can be read back from them, and a character above
the first plane counts as two. The hash of two texts in a row comes from their hashes. -/
theorem seedHash_polynomial (s t : String) :
    (readUnits16 (textUnits16 s) = s.toList ∧ (∀ unit ∈ textUnits16 s, unit.toNat < 2 ^ 16) ∧
        (textUnits16 s).length = s.length + s.toList.countP fun c => 0xFFFF < c.toNat) ∧
      (seedHash s).toNat = (∑ i : Fin (textUnits16 s).length,
        (textUnits16 s)[i].toNat * 31 ^ ((textUnits16 s).length - (i + 1))) % 2 ^ 32 ∧
      seedHash s = (signedHash s).toUInt32 ∧
      (seedHash (s ++ t)).toNat =
        ((seedHash s).toNat * 31 ^ (textUnits16 t).length + (seedHash t).toNat) % 2 ^ 32 := by
  have hencoding := readUnits16_textUnits16 s
  exact ⟨⟨hencoding, fun _ => lt_of_mem_textUnits16, length_textUnits16 s⟩, toNat_seedHash s,
    (toUInt32_signedHash s).symm, toNat_seedHash_append s t⟩

example : seedHash "a😀" = (97 * 31 + 0xD83D) * 31 + 0xDE00 := by decide

end SeededArt.Random
