import SeededArt.Proofs.Decimal.Conversion
import SeededArt.Proofs.Synthesis.RoundTrip
/-!
# Constants of synthesized expressions

A draw is a word `k` over `2 ^ 32`, and is written as a constant with a point or an exponent that
reads back as the draw, so different draws are written differently
(`literal_fraction_lossless`). The decimal of a constant is not the draw itself but rounds to it;
that it is below one and in which notation it is written follows because rounding does not cross
the doubles next to those bounds (`lt_of_nearest_lt`, `lt_fourth_place_iff`).
-/

namespace SeededArt

open Arithmetic Decimal SeededArt.Expr SeededArt.Valuation

/-! ## Decimals that are rounded to draws -/

section Bounds

variable {q : ℚ} {k : ℕ}

/-- A decimal is below the fourth place exactly if the draw that it is rounded to is: the place lies
between two doubles that lie between two draws. -/
theorem lt_fourth_place_iff (h : nearest q = k / 2 ^ 32) :
    q < 10 ^ (-4 : ℤ) ↔ (k : ℚ) / 2 ^ 32 < 1 / 10 ^ 4 := by
  have hbelow : Representable (858993 / 2 ^ 33) :=
    ⟨858993, -33, by norm_num, by norm_num, by norm_num⟩
  have habove : Representable (1717987 / 2 ^ 34) :=
    ⟨1717987, -34, by norm_num, by norm_num, by norm_num⟩
  have hbefore (hless : (k : ℚ) < 429497) : (k : ℚ) ≤ 429496 := by
    exact_mod_cast Nat.le_of_lt_succ (by exact_mod_cast hless)
  constructor
  · intro hq
    have hle := nearest_le_of_representable habove (hq.le.trans (by norm_num))
    have hcast := hbefore (by linarith)
    linarith
  · intro hk
    have hcast := hbefore (by linarith)
    by_contra hq
    have hle := le_nearest_of_representable hbelow (le_trans (by norm_num) (not_lt.1 hq))
    linarith

end Bounds

/-! ## Constants -/

section Constants

variable {k : UInt32}

theorem parse_literal_fraction {n : Numeral}
    (h : Numeral.read? (literal (fraction k : Float)) = some n) :
    Expr.parse (literal (fraction k : Float)) = .ok (.number n) := by
  have hread := readsNumber_literal (isWordFraction_fraction k).inUnit
  have hn : written (literal (fraction k : Float)) = n := by
    rw [written, h, Option.getD_some]
  have hparse := (Readable.number hread : Readable literal (fun u : Float => written (literal u))
    (.number (fraction k))).parse_text
  rwa [text_number, map, hn] at hparse

/-- A text is a constant for the draw of a word: it has a point or an exponent, the exponent exactly
for draws other than zero below the fourth decimal place, and the parser reads it as the shortest
decimal of the draw, which is rounded to the draw. -/
structure IsConstant (k : UInt32) (text : String) (s : Scaled) : Prop where
  form : IsFloatConstant text.toList
  hasExponent_iff : 'e' ∈ text.toList ↔ 0 < k.toNat ∧ (k.toNat : ℚ) / 2 ^ 32 < 1 / 10 ^ 4
  parse_eq : Expr.parse text = .ok (.number (.finite false s.digits s.power))
  nearest_eq : nearest (s.digits * 10 ^ s.power) = k.toNat / 2 ^ 32
  isShortest : IsShortestFor (fraction k) s

theorem isConstant_zero : IsConstant 0 (literal (fraction 0 : Float)) ⟨0, -1⟩ := by
  have hliteral : literal (fraction 0 : Float) = "0.0" := rfl
  have hread : Numeral.read? (literal (fraction 0 : Float)) = some (.finite false 0 (-1)) := by
    rw [hliteral]
    rfl
  have hvalue : value (fraction 0 : Float) = 0 := (fraction_value 0).2.trans (zero_div _)
  refine ⟨?_, ?_, parse_literal_fraction hread, ?_, ⟨rfl, fun d p _ => ?_, fun d _ => ?_⟩⟩
  · rw [hliteral]
    exact .pointed (by simp) (areDigits_replicate_zero 1) (by simp) (areDigits_replicate_zero 1)
  · rw [hliteral]
    exact iff_of_false (by decide) fun h => absurd h.1 (by decide)
  · rw [Nat.cast_zero, zero_mul, nearest_zero]
    exact (zero_div _).symm
  · exact Nat.length_toDigits_pos
  · rw [hvalue, Nat.cast_zero, zero_mul, sub_zero, abs_zero]
    exact abs_nonneg _

theorem exists_isConstant_of_pos (hk : 0 < k.toNat) :
    ∃ s, IsConstant k (literal (fraction k : Float)) s := by
  obtain ⟨hfinite, hvalue⟩ := fraction_value k
  have hunit : (k.toNat : ℚ) / 2 ^ 32 < 1 := by
    rw [div_lt_one (by norm_num)]
    exact_mod_cast k.toBitVec.isLt
  have hpos : 0 < value (fraction k : Float) := by
    rw [hvalue]
    positivity
  obtain ⟨s, hliteral, hshortest, hs, hnearest⟩ := exists_literal_eq hfinite hpos
  rw [hvalue] at hnearest
  have hleading : s.leading < 0 := by
    rw [leading_lt_iff hs, zpow_zero]
    exact lt_of_nearest_lt representable_one (hnearest ▸ hunit)
  have hpower : s.power < 0 := by
    have hlength : 0 < (Nat.toDigits 10 s.digits).length := Nat.length_toDigits_pos
    unfold Scaled.leading at hleading
    omega
  have hread : Numeral.read? (literal (fraction k : Float)) =
      some (.finite false s.digits s.power) := by
    rw [hliteral, Numeral.read?, String.toList_ofList, readChars?_scaledText,
      if_neg fun h => absurd h.1 (not_le.2 hpower)]
  refine ⟨s, ?_, ?_, parse_literal_fraction hread, hnearest, hshortest⟩
  · rw [hliteral, String.toList_ofList]
    exact isFloatConstant_scaledText hleading
  · rw [hliteral, String.toList_ofList, mem_scaledText_iff hleading, leading_lt_iff hs,
      lt_fourth_place_iff hnearest, and_iff_right hk]

theorem exists_isConstant (k : UInt32) : ∃ s, IsConstant k (literal (fraction k : Float)) s := by
  rcases Nat.eq_zero_or_pos k.toNat with hzero | hpos
  · obtain rfl : k = 0 := UInt32.toNat_inj.1 hzero
    exact ⟨_, isConstant_zero⟩
  · exact exists_isConstant_of_pos hpos

end Constants

/-- Every draw is written as a constant that reads back as the draw, and no two draws are written
alike. -/
theorem literal_fraction_lossless :
    (∀ k : UInt32, ∃ s, IsConstant k (literal (fraction k : Float)) s) ∧
      Function.Injective fun k : UInt32 => literal (fraction k : Float) := by
  refine ⟨exists_isConstant, fun k l h => ?_⟩
  have htext : literal (fraction k : Float) = literal (fraction l : Float) := h
  obtain ⟨s, hs⟩ := exists_isConstant k
  obtain ⟨t, ht⟩ := exists_isConstant l
  have hparse := hs.parse_eq.symm.trans ((congrArg Expr.parse htext).trans ht.parse_eq)
  obtain ⟨-, hdigits, hpower⟩ := Numeral.finite.inj (Expr.number.inj (Except.ok.inj hparse))
  have hvalue : (k.toNat : ℚ) / 2 ^ 32 = l.toNat / 2 ^ 32 := by
    rw [← hs.nearest_eq, ← ht.nearest_eq, hdigits, hpower]
  rw [div_left_inj' (by norm_num), Nat.cast_inj] at hvalue
  exact UInt32.toNat_inj.1 hvalue

example : literal (fraction 0x40000000 : Float) = "0.25" := by decide +kernel

example : literal (fraction 1 : Float) = "2.3283064365386963e-10" := by decide +kernel

end SeededArt
