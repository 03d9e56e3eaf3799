import Mathlib.Data.Stream.Init
import SeededArt.Random.Mulberry
/-!
# The draws of a source

`draws` is the endless sequence of draws that a source hands out, and an endless sequence is a
source itself. What holds of all draws of a source holds of the next one and of all draws after it
(`AllDraws.head`, `AllDraws.tail`).
-/

namespace SeededArt.Random

open Arithmetic

variable {σ α : Type}

def draws (α : Type) [Source σ α] (s : σ) : Stream' α := Stream'.corec' Source.next s

/-- An endless sequence of draws that were written down beforehand. -/
instance : Source (Stream' α) α where
  next s := (s.head, s.tail)
  strays _ := 0

theorem draws_eq [Source σ α] (s : σ) :
    draws α s =
      Stream'.cons (Source.next s : α × σ).1 (draws α (Source.next s : α × σ).2) :=
  Stream'.corec'_eq _ _

@[simp] theorem draws_stream (s : Stream' α) : draws α s = s :=
  Stream'.ext fun n => Stream'.get_unfolds_head_tail n s

theorem next_cons (u : α) (s : Stream' α) :
    (Source.next (Stream'.cons u s) : α × Stream' α) = (u, s) := rfl

/-! ## Steps of a drawing -/

section Drawing

variable {ε β γ : Type}

theorem bind_apply (x : Drawing ε σ β) (f : β → Drawing ε σ γ) (s : σ) :
    (x >>= f) s =
      match x s with
      | .ok b s => f b s
      | .error fault s => .error fault s := by
  simp only [bind, EStateM.bind]
  cases x s <;> rfl

theorem pure_apply (b : β) (s : σ) : (pure b : Drawing ε σ β) s = .ok b s := rfl

theorem draw_apply [Source σ α] (s : σ) :
    (draw : Drawing ε σ α) s =
      .ok (Source.next s : α × σ).1 (Source.next s : α × σ).2 := rfl

theorem mapM_cons_apply (f : β → Drawing ε σ γ) (b : β) (bs : List β) (s : σ) :
    ((b :: bs).mapM f) s =
      match f b s with
      | .error fault s => .error fault s
      | .ok c s =>
        match (bs.mapM f) s with
        | .error fault s => .error fault s
        | .ok cs s => .ok (c :: cs) s := by
  rw [List.mapM_cons, bind_apply]
  cases f b s with
  | error fault s => rfl
  | ok c s =>
    simp only [bind_apply]
    cases (bs.mapM f) s <;> rfl

theorem mapM_cons_of_ok {f : β → Drawing ε σ γ} {b : β} {bs : List β} {c : γ} {cs : List γ}
    {s s₁ s₂ : σ} (h : f b s = .ok c s₁) (hrest : (bs.mapM f) s₁ = .ok cs s₂) :
    ((b :: bs).mapM f) s = .ok (c :: cs) s₂ := by
  rw [mapM_cons_apply, h]
  simp [hrest]

theorem ok_of_mapM_singleton {f : β → Drawing ε σ γ} {b : β} {c : γ} {s s' : σ}
    (h : ([b].mapM f) s = .ok [c] s') : f b s = .ok c s' := by
  rw [mapM_cons_apply] at h
  split at h
  next => cases h
  next =>
    cases h
    assumption

/-- An outcome with its state carried along a function. -/
def carry {τ : Type} (f : σ → τ) : EStateM.Result ε σ β → EStateM.Result ε τ β
  | .ok b s => .ok b (f s)
  | .error fault s => .error fault (f s)

theorem mapM_carry {τ : Type} {f : σ → τ} {x : β → Drawing ε σ γ} {y : β → Drawing ε τ γ}
    (h : ∀ b s, y b (f s) = carry f (x b s)) (bs : List β) (s : σ) :
    (bs.mapM y) (f s) = carry f ((bs.mapM x) s) := by
  induction bs generalizing s with
  | nil => rfl
  | cons b bs ih =>
    rw [mapM_cons_apply, mapM_cons_apply, h]
    cases x b s with
    | error fault s => rfl
    | ok c s =>
      simp only [carry, ih]
      cases (bs.mapM x) s <;> rfl

end Drawing

/-- A function between sources that changes no draw. -/
def KeepsDraws (α : Type) {τ : Type} [Source σ α] [Source τ α] (f : σ → τ) : Prop :=
  ∀ s, (Source.next (f s) : α × τ) = ((Source.next s : α × σ).1, f (Source.next s : α × σ).2)

/-- A draw from zero, included, to one, excluded. -/
def InUnit [Arithmetic α] (u : α) : Prop := less u 0.0 = false ∧ less u 1.0 = true

/-- Every draw of a source has a property. -/
def AllDraws [Source σ α] (P : α → Prop) (s : σ) : Prop := (draws α s).All P

section AllDraws

variable [Source σ α] {P : α → Prop} {s : σ}

theorem AllDraws.head (h : AllDraws P s) : P (Source.next s : α × σ).1 := by
  have := h 0
  rwa [draws_eq] at this

theorem AllDraws.tail (h : AllDraws P s) : AllDraws P (Source.next s : α × σ).2 := by
  intro n
  have := h (n + 1)
  rwa [draws_eq, Stream'.get_succ_cons] at this

/-- What holds of every next draw and is kept by drawing holds of all draws. -/
theorem allDraws_of_invariant (I : σ → Prop) (hs : I s)
    (hP : ∀ s, I s → P (Source.next s : α × σ).1)
    (hI : ∀ s, I s → I (Source.next s : α × σ).2) : AllDraws P s := by
  intro n
  induction n generalizing s with
  | zero =>
    rw [draws_eq]
    exact hP s hs
  | succ n ih =>
    rw [draws_eq, Stream'.get_succ_cons]
    exact ih (hI s hs)

theorem allDraws_const {u : α} (hu : P u) : AllDraws P (Stream'.const u) :=
  allDraws_of_invariant (· = Stream'.const u) rfl
    (by
      rintro s rfl
      exact hu)
    (by
      rintro s rfl
      rfl)

theorem allDraws_append {us : List α} {s : Stream' α} (hus : ∀ u ∈ us, P u)
    (hs : AllDraws P s) : AllDraws P (us ++ₛ s) := by
  induction us with
  | nil => exact hs
  | cons u us ih =>
    obtain ⟨hu, hus⟩ := List.forall_mem_cons.1 hus
    have hrest := ih hus
    unfold AllDraws at hrest ⊢
    rw [draws_stream] at hrest ⊢
    intro n
    cases n with
    | zero => exact hu
    | succ n => exact hrest n

end AllDraws

end SeededArt.Random
