import SeededArt.Proofs.Random.Counting
import SeededArt.Proofs.Synthesis.Expansion
/-!
# The draws that a decay takes

A depth decays by one for each of the draws below one half at the front, as long as it is not
negative (`decaySteps`). The draw that ends the decay is taken too, but none is once the depth is
negative (`decayDraws`). The two numbers say what is left of the depth, and which draw is the next
(`decays_decaySteps`); `Grammar.DecaysIn` is all that a composite alternative has from them.
-/

namespace SeededArt

open Arithmetic SeededArt.Random

variable {σ : Type} (α : Type) [Arithmetic α] [Source σ α]

/-- How often a depth decays: the number of draws below one half at the front, or one more than the
depth if that is less. -/
def decaySteps (depth : Int) (s : σ) : ℕ :=
  (((draws α s).take (depth + 1).toNat).takeWhile fun u => less u 0.5).length

/-- How many draws it takes a depth to decay so often: one for each step and one that ends the
decay, but none when the depth is negative. -/
def decayDraws (depth : Int) (steps : ℕ) : ℕ := min (steps + 1) (depth + 1).toNat

variable {depth : Int} {s : σ}

theorem decaySteps_of_neg (h : depth < 0) : decaySteps α depth s = 0 := by
  rw [decaySteps, show (depth + 1).toNat = 0 by omega]
  rfl

theorem decaySteps_of_nonneg (h : 0 ≤ depth) :
    decaySteps α depth s =
      if less (Source.next s : α × σ).1 0.5 then
        decaySteps α (depth - 1) (Source.next s : α × σ).2 + 1
      else 0 := by
  unfold decaySteps
  rw [show (depth + 1).toNat = (depth - 1 + 1).toNat + 1 by omega, draws_eq, Stream'.take_succ_cons,
    List.takeWhile_cons]
  split <;> rfl

theorem decayDraws_succ (h : 0 ≤ depth) (steps : ℕ) :
    decayDraws depth (steps + 1) = decayDraws (depth - 1) steps + 1 := by
  unfold decayDraws
  omega

/-- A depth decays to what its steps leave of it, and takes its draws. -/
theorem decays_decaySteps (depth : Int) (s : σ) :
    Decays α depth s (depth - decaySteps α depth s)
      (skip α (decayDraws depth (decaySteps α depth s)) s) := by
  induction hn : (depth + 1).toNat generalizing depth s with
  | zero =>
    have hneg : depth < 0 := by omega
    rw [decaySteps_of_neg α hneg, decayDraws, hn, Nat.min_zero, Nat.cast_zero, sub_zero]
    exact .negative hneg
  | succ n ih =>
    have hpos : 0 ≤ depth := by omega
    rw [decaySteps_of_nonneg α hpos]
    cases hless : less (Source.next s : α × σ).1 0.5 with
    | false =>
      rw [if_neg Bool.false_ne_true, decayDraws, hn, Nat.min_eq_left (by omega), Nat.cast_zero,
        sub_zero]
      exact .stop hpos hless
    | true =>
      rw [if_pos rfl, decayDraws_succ hpos, skip_succ, Nat.cast_succ, add_comm, ← sub_sub]
      exact .step hpos hless (ih (depth - 1) _ (by omega))

/-- Every step is a draw below one half, and the draw after the last step is not, unless the depth
is negative by then. -/
theorem decaySteps_spec (depth : Int) (s : σ) :
    decaySteps α depth s ≤ (depth + 1).toNat ∧
      (∀ i < decaySteps α depth s, less ((draws α s).get i) 0.5 = true) ∧
      (decaySteps α depth s < (depth + 1).toNat →
        less ((draws α s).get (decaySteps α depth s)) 0.5 = false) := by
  induction hn : (depth + 1).toNat generalizing depth s with
  | zero =>
    rw [decaySteps_of_neg α (by omega)]
    exact ⟨le_rfl, by simp, by simp⟩
  | succ n ih =>
    rw [decaySteps_of_nonneg α (by omega), draws_eq]
    cases hless : less (Source.next s : α × σ).1 0.5 with
    | false =>
      rw [if_neg Bool.false_ne_true]
      exact ⟨Nat.zero_le _, by simp, fun _ => hless⟩
    | true =>
      rw [if_pos rfl]
      obtain ⟨hle, hbelow, hstop⟩ := ih (depth - 1) (Source.next s : α × σ).2 (by omega)
      refine ⟨Nat.succ_le_succ hle, ?_, ?_⟩
      · rintro (_ | i) hi
        · exact hless
        · exact hbelow i (Nat.lt_of_succ_lt_succ hi)
      · intro h
        exact hstop (Nat.lt_of_succ_lt_succ h)

theorem decaySteps_counted (depth : Int) (s : σ) (taken : ℕ) :
    decaySteps α depth (⟨s, taken⟩ : Counted σ) = decaySteps α depth s := by
  rw [decaySteps, draws_counted, decaySteps]

variable {α} {g : Grammar α} {levels : ℕ} {symbol : String} {rule : Rule α} {a : Alternative α}
  {s₁ : σ}

/-- All arguments of a composite alternative are expanded at the depth that is left, less one. -/
theorem Grammar.expand_composite_eq (hrule : g.rule? symbol = some rule)
    (hpick : pick (·.weight) (g.ruleAtDepth rule depth).alternatives s = .ok a s₁)
    (hterm : a.isTerminal = false) :
    g.expand (levels + 1) symbol depth s =
      (Expr.call a.emit <$> a.arguments.mapM fun argument =>
          g.expand levels argument (depth - decaySteps α depth s₁ - 1))
        (skip α (decayDraws depth (decaySteps α depth s₁)) s₁) := by
  rw [expand_succ]
  simp only [hrule, hpick, hterm, Bool.false_eq_true, if_false,
    decay_of_decays (decays_decaySteps α depth s₁), Functor.map, EStateM.map]
  cases (a.arguments.mapM fun argument =>
    g.expand levels argument (depth - decaySteps α depth s₁ - 1))
      (skip α (decayDraws depth (decaySteps α depth s₁)) s₁) <;> rfl

theorem decay_counted (ε : Type) (depth : Int) (s : σ) (taken : ℕ) :
    decay (α := α) (ε := ε) (depth + 1).toNat depth (⟨s, taken⟩ : Counted σ) =
      .ok (depth - decaySteps α depth s)
        ⟨skip α (decayDraws depth (decaySteps α depth s)) s,
          taken + decayDraws depth (decaySteps α depth s)⟩ := by
  have h := decays_decaySteps α depth (⟨s, taken⟩ : Counted σ)
  rw [decaySteps_counted, skip_counted] at h
  exact decay_of_decays h

/-- A depth decays in so many steps by so many draws, and all arguments of a composite alternative
are expanded at what is left, less one. -/
structure Grammar.DecaysIn (g : Grammar α) (depth : Int) (s : σ) (steps taken : ℕ) : Prop where
  /-- No more steps than until the depth is negative, -/
  steps_le : steps ≤ depth + 1
  /-- one for each draw below one half at the front -/
  below_half : ∀ i < steps, less ((draws α s).get i) 0.5 = true
  /-- and, as long as the depth is not negative, none for the next draw. -/
  stop : steps ≤ depth → less ((draws α s).get steps) 0.5 = false
  /-- That next draw is taken, -/
  taken_of_le : steps ≤ depth → taken = steps + 1
  /-- but not once the depth is negative. -/
  taken_of_eq : steps = depth + 1 → taken = depth + 1
  decay_eq : ∀ before, decay (α := α) (ε := SynthesisFault α) (depth + 1).toNat depth
    (⟨s, before⟩ : Counted σ) = .ok (depth - steps) ⟨skip α taken s, before + taken⟩
  shared_ge : -2 ≤ depth - steps - 1
  shared_le : depth - steps - 1 ≤ depth - 1
  expand_eq : ∀ (levels : ℕ) (symbol : String) (rule : Rule α) (a : Alternative α) (s₀ : σ),
    g.rule? symbol = some rule → pick (·.weight) rule.alternatives s₀ = .ok a s →
    a.isTerminal = false →
    g.expand (levels + 1) symbol depth s₀ =
      (Expr.call a.emit <$> a.arguments.mapM fun argument =>
        g.expand levels argument (depth - steps - 1)) (skip α taken s)

theorem Grammar.decaysIn (g : Grammar α) (h : 1 ≤ depth) (s : σ) :
    g.DecaysIn depth s (decaySteps α depth s) (decayDraws depth (decaySteps α depth s)) := by
  obtain ⟨hle, hbelow, hstop⟩ := decaySteps_spec α depth s
  exact {
    steps_le := by omega
    below_half := hbelow
    stop := fun h => hstop (by omega)
    taken_of_le := by
      unfold decayDraws
      omega
    taken_of_eq := by
      unfold decayDraws
      omega
    decay_eq := decay_counted _ depth s
    shared_ge := by omega
    shared_le := by omega
    expand_eq := by
      intro levels symbol rule a s₀ hrule hpick hterm
      refine expand_composite_eq hrule ?_ hterm
      rwa [ruleAtDepth, if_neg (by omega)] }

end SeededArt
