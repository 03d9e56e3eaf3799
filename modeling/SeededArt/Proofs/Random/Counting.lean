import Mathlib.Logic.Function.Iterate
import SeededArt.Proofs.Random.Draws
/-!
# Counting draws

`skip` takes draws and forgets them. A source that counts hands out the draws of the source that it
counts for (`draws_counted`), and counts each one that is taken (`skip_counted`).
-/

namespace SeededArt.Random

variable {σ : Type} (α : Type) [Source σ α]

def skip (n : ℕ) (s : σ) : σ := (fun s => (Source.next s : α × σ).2)^[n] s

@[simp] theorem skip_zero (s : σ) : skip α 0 s = s := rfl

theorem skip_succ (n : ℕ) (s : σ) : skip α (n + 1) s = skip α n (Source.next s : α × σ).2 := rfl

theorem next_counted (s : σ) (taken : ℕ) :
    (Source.next (⟨s, taken⟩ : Counted σ) : α × Counted σ) =
      ((Source.next s : α × σ).1, ⟨(Source.next s : α × σ).2, taken + 1⟩) := rfl

theorem draws_counted (s : σ) (taken : ℕ) : draws α (⟨s, taken⟩ : Counted σ) = draws α s := by
  refine Stream'.ext fun n => ?_
  induction n generalizing s taken with
  | zero => rfl
  | succ n ih =>
    rw [draws_eq s, draws_eq, next_counted, Stream'.get_succ_cons, Stream'.get_succ_cons, ih]

theorem skip_counted (n : ℕ) (s : σ) (taken : ℕ) :
    skip α n (⟨s, taken⟩ : Counted σ) = ⟨skip α n s, taken + n⟩ := by
  induction n generalizing s taken with
  | zero => rfl
  | succ n ih => rw [skip_succ, next_counted, ih, skip_succ, Nat.add_assoc, Nat.add_comm 1 n]

end SeededArt.Random
