import Mathlib.Data.Set.Card
import SeededArt.Proofs.Random.Draws
/-!
# Sources with few strays

A draw that has not the property which all draws are meant to have is a stray. `StraysAtMost`
bounds how many of a source's draws are strays; each stray that is drawn lowers the bound.
`Allowing` lets a source claim any number of strays, with the same draws.
-/

namespace SeededArt.Random

variable {σ α : Type} [Source σ α] {P : α → Prop} {s : σ} {k : ℕ}

/-- At most so many draws of a source do not have a property. -/
def StraysAtMost (P : α → Prop) (s : σ) (k : ℕ) : Prop :=
  {n | ¬P ((draws α s).get n)}.encard ≤ k

theorem AllDraws.straysAtMost (h : AllDraws P s) (k : ℕ) : StraysAtMost P s k := by
  have hnone : {n | ¬P ((draws α s).get n)} = ∅ := by
    rw [Set.eq_empty_iff_forall_notMem]
    intro n hn
    exact hn (h n)
  unfold StraysAtMost
  rw [hnone, Set.encard_empty]
  exact zero_le

namespace StraysAtMost

theorem mono {l : ℕ} (h : StraysAtMost P s k) (hkl : k ≤ l) : StraysAtMost P s l :=
  h.trans (by exact_mod_cast hkl)

/-- The strays after the next draw, one place later, are strays. -/
theorem image_succ_subset (P : α → Prop) (s : σ) :
    Nat.succ '' {n | ¬P ((draws α (Source.next s : α × σ).2).get n)} ⊆
      {n | ¬P ((draws α s).get n)} := by
  rintro _ ⟨n, hn, rfl⟩
  show ¬P ((draws α s).get (n + 1))
  rw [draws_eq, Stream'.get_succ_cons]
  exact hn

theorem tail (h : StraysAtMost P s k) : StraysAtMost P (Source.next s : α × σ).2 k := by
  unfold StraysAtMost at h ⊢
  rw [← Nat.succ_injective.encard_image]
  exact (Set.encard_le_encard (image_succ_subset P s)).trans h

theorem tail_of_not (h : StraysAtMost P s k) (hstray : ¬P (Source.next s : α × σ).1) :
    ∃ j, k = j + 1 ∧ StraysAtMost P (Source.next s : α × σ).2 j := by
  have hhead : 0 ∈ {n | ¬P ((draws α s).get n)} := by
    show ¬P ((draws α s).get 0)
    rw [draws_eq]
    exact hstray
  have hle : {n | ¬P ((draws α (Source.next s : α × σ).2).get n)}.encard + 1 ≤ k := by
    rw [← Nat.succ_injective.encard_image, ← Set.encard_insert_of_notMem (a := 0) (by simp)]
    exact (Set.encard_le_encard (Set.insert_subset hhead (image_succ_subset P s))).trans h
  cases k with
  | zero => simp at hle
  | succ j =>
    refine ⟨j, rfl, ?_⟩
    rw [Nat.cast_succ] at hle
    exact (ENat.add_le_add_iff_right ENat.one_ne_top).1 hle

end StraysAtMost

/-- A source that allows for a number of strays. -/
structure Allowing (σ : Type) where
  source : σ
  strays : Nat

/-- The draws of the source. -/
instance (σ α : Type) [Source σ α] : Source (Allowing σ) α where
  next a :=
    let (u, source) := Source.next a.source
    (u, { a with source })
  strays a := a.strays

theorem keepsDraws_allowing (strays : ℕ) :
    KeepsDraws α fun s : σ => Allowing.mk s strays := fun _ => rfl

end SeededArt.Random
