import SeededArt.Lint.Checks
import SeededArt.Proofs.Grammar.Builtin
import SeededArt.Proofs.Grammar.Rebuilding
import SeededArt.Proofs.Sampling.Weightless
import SeededArt.Proofs.Synthesis.Agreement
import SeededArt.Proofs.Synthesis.CheckedDepth
/-!
# Alternatives that are never chosen

An alternative that is found to have weight zero can be left out of its rule (`dropZeros`). Its rule
keeps the value of its total, so it is accepted again and keeps an alternative
(`isAcceptable_dropZeros`), and every draw of the unit interval chooses as before
(`choose_dropZeros`). That holds of the fallback rule too, so a grammar of doubles can be built
again from such rules, and agrees with the first one on all symbols
(`agreeOn_of_isRebuilt_dropZeros`).
-/

namespace SeededArt

open Arithmetic SeededArt.Random SeededArt.Valuation RoundedArithmetic

namespace Lint

/-! ## Findings -/

section Findings

variable {α : Type} [Arithmetic α] {r : Rule α} {a : Alternative α}

/-- The finding that an alternative is never chosen. -/
def zeroWeight (r : Rule α) (a : Alternative α) : Diagnostic :=
  { severity := .warning
    code := .zeroWeight
    message := s!"Alternative {a.name} of rule {r.name} has weight 0 and is never chosen" }

theorem checkWeights_eq (g : Grammar α) :
    checkWeights g = g.rules.flatMap fun r =>
      (r.alternatives.filter fun a => isZeroWeight a.weight).map (zeroWeight r) := rfl

/-- A rule without the alternatives that such a finding is about. -/
def dropZeros (r : Rule α) : Rule α :=
  { r with alternatives := r.alternatives.filter fun a => !isZeroWeight a.weight }

@[simp] theorem name_dropZeros (r : Rule α) : (dropZeros r).name = r.name := rfl

theorem mem_dropZeros :
    a ∈ (dropZeros r).alternatives ↔ a ∈ r.alternatives ∧ isZeroWeight a.weight = false := by
  unfold dropZeros
  rw [List.mem_filter, Bool.not_eq_true']

variable [RoundedArithmetic α]

theorem isZeroWeight_iff {w : α} (hw : IsWeight w) : isZeroWeight w = true ↔ value w = 0 := by
  unfold isZeroWeight
  rw [less_zero_eq_false_iff hw.1 |>.2 hw.2, ← hw.zero_less_eq_false_iff]
  simp

theorem onlyDropsZeros (hw : ∀ a ∈ r.alternatives, IsWeight a.weight) :
    OnlyDropsZeros (·.weight) (fun a : Alternative α => !isZeroWeight a.weight)
      r.alternatives where
  isWeight := hw
  zero a ha hdropped := by
    rw [Bool.not_eq_false'] at hdropped
    exact (isZeroWeight_iff (hw a ha)).1 hdropped

end Findings

/-! ## One rule -/

section Rules

variable {α : Type} [Arithmetic α] [RoundedArithmetic α] {r : Rule α}

/-- An acceptable rule stays acceptable, and does not lose all its alternatives. -/
theorem isAcceptable_dropZeros (h : r.IsAcceptable) : (dropZeros r).IsAcceptable := by
  obtain ⟨hs, hsame⟩ := total_filter (onlyDropsZeros h.weights) h.finite
  have hnear : |value (dropZeros r).total - 1| ≤ 1 / 10 ^ 9 := by
    have htotal : value (dropZeros r).total = value r.total := hsame
    rw [htotal]
    exact h.near
  refine ⟨?_, fun a ha => h.weights a (mem_dropZeros.1 ha).1, hs, hnear⟩
  -- without alternatives the total would be zero
  intro hnil
  have hzero : value (dropZeros r).total = 0 := by
    unfold Rule.total
    rw [hnil]
    exact emptySum_finite.2
  rw [hzero] at hnear
  norm_num at hnear

end Rules

/-! ## Grammars of doubles -/

section Doubles

variable {g h : Grammar Float} {r : Rule Float} {x : String}

theorem fault?_dropZeros {grammar : String} (hr : r.fault? grammar = none) :
    (dropZeros r).fault? grammar = none := by
  rw [Rule.fault?_eq_none_iff_isAcceptable] at hr ⊢
  exact isAcceptable_dropZeros hr

/-- A double of the unit interval chooses the same from a rule without its zeros. -/
theorem choose_dropZeros (hr : r ∈ g.rules) {u : Float} (hu : InUnit u) :
    choose (·.weight) (dropZeros r).alternatives u = choose (·.weight) r.alternatives u := by
  have hfault := g.faultless r hr
  obtain ⟨a, -, hchoose, -⟩ := g.picksPositive_of_inUnit_float r hr u hu
  rw [hchoose]
  exact choose_filter (onlyDropsZeros (isWeight_of_fault? hfault)) (total_of_fault? hfault).1
    (isFinite_of_inUnit hu) hu hchoose

theorem map_name_dropZeros (rules : List (Rule Float)) :
    (rules.map dropZeros).map (·.name) = rules.map (·.name) := by
  rw [List.map_map]
  rfl

theorem exists_isRebuilt_dropZeros (g : Grammar Float) :
    ∃ h, g.rebuildWith (g.rules.map dropZeros) = .ok h ∧
      g.IsRebuilt (g.rules.map dropZeros) h := by
  obtain ⟨hstart, hfallback, hdangling, hopen⟩ := Draft.fault?_eq_none_iff.1 g.sound
  rw [Draft.openFallback?_eq_none_iff] at hopen
  rw [Draft.dangling?_eq_none_iff] at hdangling
  apply Grammar.exists_rebuildWith
  · rw [map_name_dropZeros]
    exact g.distinct
  · rw [List.forall_mem_map]
    exact fun r hr => fault?_dropZeros (g.faultless r hr)
  · rw [map_name_dropZeros]
    exact Draft.has_iff.1 hstart
  · rw [map_name_dropZeros]
    exact Draft.has_iff.1 hfallback
  · rw [List.forall_mem_map, map_name_dropZeros]
    exact fun r hr a ha => hdangling r hr a (mem_dropZeros.1 ha).1
  · rw [List.forall_mem_map]
    exact fun r hr hname a ha => hopen r hr hname a (mem_dropZeros.1 ha).1

section Rebuilt

variable (hrebuilt : g.IsRebuilt (g.rules.map dropZeros) h)
include hrebuilt

theorem rule?_of_isRebuilt_dropZeros (x : String) : h.rule? x = (g.rule? x).map dropZeros := by
  unfold Draft.rule? Rule.find?
  rw [hrebuilt.rules_eq, List.find?_map]
  rfl

theorem checkWeights_of_isRebuilt : checkWeights h = [] := by
  rw [checkWeights_eq, hrebuilt.rules_eq, List.flatMap_eq_nil_iff, List.forall_mem_map]
  intro r _
  rw [List.map_eq_nil_iff, List.filter_eq_nil_iff]
  intro a ha
  simp [(mem_dropZeros.1 ha).2]

theorem fallbackRule_of_isRebuilt_dropZeros : h.fallbackRule = dropZeros g.fallbackRule := by
  apply hrebuilt.fallbackRule_eq
  rw [rule?_of_isRebuilt_dropZeros hrebuilt, g.rule?_fallback]
  rfl

theorem agreeOn_of_isRebuilt_dropZeros : g.AgreeOn InUnit (fun _ => True) h where
  name_eq := hrebuilt.name_eq
  choice_eq x _ depth u hu := by
    unfold Grammar.choiceAt
    rw [rule?_of_isRebuilt_dropZeros hrebuilt, Option.map_map]
    refine Option.map_congr fun r hr => ?_
    have hrule : h.ruleAtDepth (dropZeros r) depth = dropZeros (g.ruleAtDepth r depth) := by
      unfold Grammar.ruleAtDepth
      rw [fallbackRule_of_isRebuilt_dropZeros hrebuilt]
      split <;> rfl
    rw [Function.comp_apply, hrule]
    exact choose_dropZeros (Grammar.ruleAtDepth_mem (Grammar.mem_of_rule? hr)) hu
  closed _ _ _ _ _ _ _ _ _ := trivial

end Rebuilt

/-- The alternatives that are found to have weight zero are those that `dropZeros` leaves out.
Without them a grammar can be built again. No alternative of it is found to have weight zero, and it
synthesizes the same from every symbol, with the same draws of the unit interval. -/
theorem exists_rebuildWith_dropZeros (g : Grammar Float) :
    (checkWeights g = g.rules.flatMap fun r =>
        (r.alternatives.filter fun a => isZeroWeight a.weight).map (zeroWeight r)) ∧
      (∀ r ∈ g.rules, ∀ a ∈ r.alternatives,
        a ∉ (dropZeros r).alternatives ↔ isZeroWeight a.weight = true) ∧
      ∃ h, g.rebuildWith (g.rules.map dropZeros) = .ok h ∧
        g.IsRebuilt (g.rules.map dropZeros) h ∧ checkWeights h = [] ∧
        ∀ {σ : Type} [Source σ Float] (symbol : String) (depth : Int) (s : σ),
          AllDraws (InUnit (α := Float)) s →
          h.synthesize symbol depth s = g.synthesize symbol depth s := by
  refine ⟨checkWeights_eq g, fun r _ a ha => ?_, ?_⟩
  · rw [mem_dropZeros, not_and, Bool.not_eq_false]
    exact ⟨fun h => h ha, fun h _ => h⟩
  obtain ⟨h, hbuild, hrebuilt⟩ := exists_isRebuilt_dropZeros g
  refine ⟨h, hbuild, hrebuilt, checkWeights_of_isRebuilt hrebuilt, fun symbol depth s hs => ?_⟩
  exact (agreeOn_of_isRebuilt_dropZeros hrebuilt).synthesize_eq trivial hs

/-- Rules with zeros of both signs, one of them a composite alternative of the fallback rule. -/
def rulesWithZeros : List (Rule Float) :=
  [⟨"A", [⟨"f", ["E"], -0.0, "f"⟩, ⟨"x", [], 1.0, "get_x"⟩]⟩,
    ⟨"E", [⟨"g", ["A", "A"], 0.5, "g"⟩, ⟨"y", [], 0.0, "get_y"⟩, ⟨"h", ["E"], 0.5, "h"⟩]⟩]

theorem exists_rebuildWith_rulesWithZeros :
    ∃ g h : Grammar Float, Builtin.assemble "zeros" rulesWithZeros = .ok g ∧
      (checkWeights g).map (·.message) =
        ["Alternative f of rule A has weight 0 and is never chosen",
          "Alternative y of rule E has weight 0 and is never chosen"] ∧
      g.rebuildWith (g.rules.map dropZeros) = .ok h ∧ checkWeights h = [] ∧
      AllDraws (InUnit (α := Float)) (Mulberry.ofSeed "art") ∧
      h.synthesize "E" 4 (Mulberry.ofSeed "art") =
        g.synthesize "E" 4 (Mulberry.ofSeed "art") := by
  have hcheck : Builtin.assembles (fun g : Grammar Float => (checkWeights g).map (·.message) =
      ["Alternative f of rule A has weight 0 and is never chosen",
        "Alternative y of rule E has weight 0 and is never chosen"]) "zeros"
      rulesWithZeros = true := by
    decide +kernel
  obtain ⟨g, hg, hfound⟩ := Builtin.exists_assemble hcheck
  obtain ⟨-, -, h, hbuild, -, hnone, hsame⟩ := exists_rebuildWith_dropZeros g
  have hunit : AllDraws (InUnit (α := Float)) (Mulberry.ofSeed "art") := by
    intro n
    exact (allDraws_mulberry (Mulberry.ofSeed "art") n).inUnit
  exact ⟨g, h, hg, of_decide_eq_true hfound, hbuild, hnone, hunit, hsame "E" 4 _ hunit⟩

end Doubles

end Lint

end SeededArt
