import SeededArt.Proofs.Grammar.Soundness
import SeededArt.Proofs.Numbers.NearOne
/-!
# Which rules and which grammars are accepted

A rule is accepted if it has alternatives, their weights are finite and not negative, and the total
of the weights is at most `1e-9` away from one (`Rule.fault?_eq_none_iff_isAcceptable`). Rules make
a grammar if the start and fallback rules are among them, every argument names one of them, and the
composite alternatives of the fallback rule weigh nothing (`Draft.fault?_eq_none_iff_fitTogether`).
Both conditions are about the values of the weights: the negative zero is a weight like zero.
-/

namespace SeededArt

open Arithmetic SeededArt.Valuation RoundedArithmetic

variable {α : Type} [Arithmetic α]

/-! ## One rule -/

/-- What a rule by itself has to fulfil. Its total is the sum of the weights as numbers of the
type, one by one from the left. -/
structure Rule.IsAcceptable [RoundedArithmetic α] (r : Rule α) : Prop where
  nonempty : r.alternatives ≠ []
  weights : ∀ a ∈ r.alternatives, IsWeight a.weight
  finite : isFinite r.total = true
  near : |value r.total - 1| ≤ 1 / 10 ^ 9

theorem Rule.fault?_eq_none_iff_isAcceptable {r : Rule Float} {grammar : String} :
    r.fault? grammar = none ↔ r.IsAcceptable := by
  rw [Rule.fault?_eq_none_iff]
  simp only [hasGoodWeight_iff]
  constructor
  · rintro ⟨hnonempty, hweights, hnear⟩
    have hw : ∀ w ∈ r.alternatives.map (·.weight), IsWeight w := by simpa using hweights
    obtain ⟨hfinite, hclose⟩ := (isNearOne_total_iff hw).1 hnear
    exact ⟨hnonempty, hweights, hfinite, hclose⟩
  · intro h
    have hw : ∀ w ∈ r.alternatives.map (·.weight), IsWeight w := by simpa using h.weights
    exact ⟨h.nonempty, h.weights, (isNearOne_total_iff hw).2 ⟨h.finite, h.near⟩⟩

/-! ## Adding a rule -/

namespace Draft

variable {d : Draft α} {r : Rule α} {name : String}

theorem has_iff : d.has name = true ↔ name ∈ d.rules.map (·.name) := Rule.has_eq_true_iff

theorem rule?_eq_some_iff : d.rule? name = some r ↔ r ∈ d.rules ∧ r.name = name := by
  constructor
  · intro h
    exact ⟨Rule.mem_of_find? h, by simpa using List.find?_some h⟩
  · rintro ⟨hr, rfl⟩
    have hhas : d.has r.name = true := has_iff.2 (List.mem_map_of_mem hr)
    rw [has, ← Rule.isSome_find?_eq, Option.isSome_iff_exists] at hhas
    obtain ⟨found, hfound⟩ := hhas
    have hname : found.name = r.name := by simpa using List.find?_some hfound
    have hsame : found = r :=
      List.inj_on_of_nodup_map d.distinct (Rule.mem_of_find? hfound) hr hname
    rw [hsame] at hfound
    exact hfound

/-- A draft is another one with a rule after the others. -/
structure IsExtendedBy (d : Draft α) (r : Rule α) (longer : Draft α) : Prop where
  name_eq : longer.name = d.name
  start_eq : longer.start = d.start
  fallback_eq : longer.fallback = d.fallback
  rules_eq : longer.rules = d.rules ++ [r]

theorem addRule_of_has (h : d.has r.name = true) :
    d.addRule r = .error (.repeatedRule r.name d.name) := by
  unfold addRule
  rw [dif_pos h]

theorem addRule_of_fault {fault : GrammarFault α} (h : d.has r.name = false)
    (hr : r.fault? d.name = some fault) : d.addRule r = .error fault := by
  unfold addRule
  rw [dif_neg (by simp [h])]
  split <;> simp_all

theorem exists_addRule (h : d.has r.name = false) (hr : r.fault? d.name = none) :
    ∃ longer, d.addRule r = .ok longer ∧ d.IsExtendedBy r longer := by
  unfold addRule
  rw [dif_neg (by simp [h])]
  split
  next hfault =>
    rw [hr] at hfault
    cases hfault
  next => exact ⟨_, rfl, rfl, rfl, rfl, rfl⟩

end Draft

/-! ## The rules together -/

/-- What the rules of a grammar have to fulfil together. -/
structure FitTogether [Valuation α] (start fallback : String) (rules : List (Rule α)) : Prop where
  start_mem : start ∈ rules.map (·.name)
  fallback_mem : fallback ∈ rules.map (·.name)
  arguments_mem : ∀ r ∈ rules, ∀ a ∈ r.alternatives, ∀ argument ∈ a.arguments,
    argument ∈ rules.map (·.name)
  composite_zero : ∀ r ∈ rules, r.name = fallback → ∀ a ∈ r.alternatives, a.arguments ≠ [] →
    value a.weight = 0

namespace Draft

variable {d : Draft α}

theorem dangling?_eq_none_iff :
    d.dangling? = none ↔ ∀ r ∈ d.rules, ∀ a ∈ r.alternatives, ∀ argument ∈ a.arguments,
      argument ∈ d.rules.map (·.name) := by
  unfold dangling?
  simp only [List.findSome?_eq_none_iff, Option.map_eq_none_iff, List.find?_eq_none,
    Bool.not_eq_true', Bool.not_eq_false, has_iff]

theorem openFallback?_eq_none_iff :
    d.openFallback? = none ↔ ∀ r ∈ d.rules, r.name = d.fallback → ∀ a ∈ r.alternatives,
      a.arguments ≠ [] → less 0.0 a.weight = false := by
  have hopen : ∀ a : Alternative α, (!a.isTerminal && less 0.0 a.weight) = true ↔
      ¬(a.arguments ≠ [] → less 0.0 a.weight = false) := by
    intro a
    simp [Alternative.isTerminal]
  unfold openFallback?
  simp only [Option.bind_eq_none_iff, List.find?_eq_none, hopen, not_not, rule?_eq_some_iff,
    and_imp]

theorem fault?_eq_none_iff_fitTogether [RoundedArithmetic α] :
    d.fault? = none ↔ FitTogether d.start d.fallback d.rules := by
  have hclosed : d.openFallback? = none ↔ ∀ r ∈ d.rules, r.name = d.fallback →
      ∀ a ∈ r.alternatives, a.arguments ≠ [] → value a.weight = 0 := by
    rw [openFallback?_eq_none_iff]
    refine forall₂_congr fun r hr => forall_congr' fun _ => forall₂_congr fun a ha => ?_
    rw [(isWeight_of_fault? (d.faultless r hr) a ha).zero_less_eq_false_iff]
  rw [fault?_eq_none_iff, has_iff, has_iff, dangling?_eq_none_iff, hclosed]
  constructor
  · rintro ⟨hstart, hfallback, harguments, hzero⟩
    exact ⟨hstart, hfallback, harguments, hzero⟩
  · intro h
    exact ⟨h.start_mem, h.fallback_mem, h.arguments_mem, h.composite_zero⟩

end Draft

end SeededArt
