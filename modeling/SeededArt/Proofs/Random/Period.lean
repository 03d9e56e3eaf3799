import Mathlib.Algebra.Group.Nat.Defs
import Mathlib.Data.Set.Operations
import Mathlib.Data.Stream.Init
import Mathlib.Logic.Function.Iterate
import Mathlib.Order.Bounds.Defs
import Mathlib.Order.Interval.Set.Defs
import SeededArt.Random.Mulberry
/-!
# The period of the generator

After `n` draws the state is the start plus `n` times the increment, modulo `2 ^ 32`
(`toNat_state_after`), and an output belongs to the state that its draw leads to (`get_outputs`). So
every draw can be computed without the ones before it.

The increment is odd, so it has an inverse modulo `2 ^ 32`, and two states tell how many draws lie
between them (`after_eq_iff`). So `2 ^ 32` draws lead through every state exactly once and back to
the start, and all generators go round the same cycle (`after_cycles`).
-/

namespace SeededArt.Random.Mulberry

variable {g h : Mulberry} {k n : ℕ}

def after (g : Mulberry) (n : ℕ) : Mulberry := (fun g : Mulberry => g.next.2)^[n] g

def outputs (g : Mulberry) : Stream' UInt32 := Stream'.corec' next g

@[simp] theorem after_zero (g : Mulberry) : g.after 0 = g := rfl

theorem after_succ (g : Mulberry) (n : ℕ) : g.after (n + 1) = g.advance.after n :=
  Function.iterate_succ_apply _ n g

theorem after_add (g : Mulberry) (m n : ℕ) : (g.after m).after n = g.after (m + n) := by
  unfold after
  rw [Nat.add_comm, Function.iterate_add_apply]

theorem outputs_eq (g : Mulberry) : g.outputs = Stream'.cons g.next.1 g.advance.outputs :=
  Stream'.corec'_eq next g

theorem eq_of_state_eq (hstate : g.state = h.state) : g = h := by
  cases g
  cases h
  exact congrArg mk hstate

/-! ## Random access -/

theorem state_after (g : Mulberry) (n : ℕ) :
    (g.after n).state = g.state + UInt32.ofNat n * increment := by
  induction n generalizing g with
  | zero => simp
  | succ n ih =>
    have hone : UInt32.ofNat 1 * increment = increment := UInt32.one_mul increment
    rw [after_succ, ih, advance, UInt32.ofNat_add, UInt32.add_mul, hone, UInt32.add_assoc,
      UInt32.add_comm increment]

/-- The state after a number of draws is reached by one multiplication. -/
theorem toNat_state_after (g : Mulberry) (n : ℕ) :
    (g.after n).state.toNat = (g.state.toNat + n * 0x6D2B79F5) % 2 ^ 32 := by
  have hincrement : increment.toNat = 0x6D2B79F5 := rfl
  rw [state_after, UInt32.toNat_add, UInt32.toNat_mul, UInt32.toNat_ofNat', hincrement,
    Nat.mod_mul_mod, Nat.add_mod_mod]

theorem get_outputs (g : Mulberry) (n : ℕ) :
    g.outputs.get n = scramble (g.after (n + 1)).state := by
  induction n generalizing g with
  | zero =>
    rw [outputs_eq, after_succ]
    rfl
  | succ n ih => rw [outputs_eq, Stream'.get_succ_cons, ih, ← after_succ]

theorem outputs_after (g : Mulberry) (k : ℕ) : (g.after k).outputs = g.outputs.drop k := by
  refine Stream'.ext fun n => ?_
  rw [Stream'.get_drop, get_outputs, get_outputs, after_add, Nat.add_assoc]

/-! ## The cycle of states -/

/-- The inverse of the increment modulo `2 ^ 32`. -/
def stride : UInt32 := 0xDC58AA5D

theorem increment_mul_stride : increment * stride = 1 := by decide

/-- The number of draws between two states, modulo `2 ^ 32`. -/
def distance (g h : Mulberry) : UInt32 := (h.state - g.state) * stride

theorem after_eq_iff : g.after n = h ↔ UInt32.ofNat n = g.distance h := by
  unfold distance
  constructor
  · rintro rfl
    rw [state_after, UInt32.add_comm, UInt32.add_sub_cancel, UInt32.mul_assoc,
      increment_mul_stride, UInt32.mul_one]
  · intro hn
    refine eq_of_state_eq ?_
    rw [state_after, hn, UInt32.mul_assoc, UInt32.mul_comm stride, increment_mul_stride,
      UInt32.mul_one, UInt32.add_comm, UInt32.sub_add_cancel]

theorem after_eq_iff_of_lt (hn : n < 2 ^ 32) : g.after n = h ↔ n = (g.distance h).toNat := by
  rw [after_eq_iff, ← UInt32.toNat_inj, UInt32.toNat_ofNat', Nat.mod_eq_of_lt hn]

theorem after_eq_after_iff (g : Mulberry) (m n : ℕ) :
    g.after m = g.after n ↔ m % 2 ^ 32 = n % 2 ^ 32 := by
  rw [after_eq_iff, ← after_eq_iff.1 rfl, ← UInt32.toNat_inj, UInt32.toNat_ofNat',
    UInt32.toNat_ofNat']

theorem injOn_state_after (g : Mulberry) : (Set.Iio (2 ^ 32)).InjOn fun n => (g.after n).state := by
  intro m hm n hn hstate
  have hmod := (after_eq_after_iff g m n).1 (eq_of_state_eq hstate)
  rwa [Nat.mod_eq_of_lt hm, Nat.mod_eq_of_lt hn] at hmod

/-- The first number of draws that leads back is `2 ^ 32`. -/
theorem isLeast_return (g : Mulberry) : IsLeast {n | 0 < n ∧ g.after n = g} (2 ^ 32) := by
  have hreturn (n : ℕ) : g.after n = g ↔ n % 2 ^ 32 = 0 := after_eq_after_iff g n 0
  refine ⟨⟨Nat.two_pow_pos 32, (hreturn _).2 (Nat.mod_self _)⟩, fun n hn => ?_⟩
  obtain ⟨hpos, hback⟩ := hn
  exact Nat.le_of_dvd hpos (Nat.dvd_of_mod_eq_zero ((hreturn n).1 hback))

theorem existsUnique_after (g h : Mulberry) : ∃! k, k < 2 ^ 32 ∧ g.after k = h := by
  have hlt : (g.distance h).toNat < 2 ^ 32 := (g.distance h).toNat_lt
  refine ⟨(g.distance h).toNat, ⟨hlt, (after_eq_iff_of_lt hlt).2 rfl⟩, fun k hk => ?_⟩
  exact (after_eq_iff_of_lt hk.1).1 hk.2

/-- Every state and output is found without those before it. The states of `2 ^ 32` draws differ,
and that many draws are the fewest that lead back to the start. Of two generators each is the other
one after a number of draws, of which one is below `2 ^ 32`, and its outputs are the other's without
as many first ones. -/
theorem after_cycles (g h : Mulberry) :
    (∀ n, (g.after n).state.toNat = (g.state.toNat + n * 0x6D2B79F5) % 2 ^ 32 ∧
        g.outputs.get n = scramble (g.after (n + 1)).state) ∧
      (Set.Iio (2 ^ 32)).InjOn (fun n => (g.after n).state) ∧
      IsLeast {n | 0 < n ∧ g.after n = g} (2 ^ 32) ∧
      (∃! k, k < 2 ^ 32 ∧ g.after k = h) ∧
      ∀ k, (g.after k).outputs = g.outputs.drop k ∧
        ∀ n, (g.after k).after n = g.after (k + n) := by
  exact ⟨fun n => ⟨toNat_state_after g n, get_outputs g n⟩, injOn_state_after g,
    isLeast_return g, existsUnique_after g h, fun k => ⟨outputs_after g k, after_add g k⟩⟩

end SeededArt.Random.Mulberry
