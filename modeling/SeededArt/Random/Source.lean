import SeededArt.Arithmetic
/-!
# Sources of draws

A source hands out draws one after the other. Draws are meant to lie in `[0, 1)`; a source that
replays a script may hand out others, and says how many at most.
-/

namespace SeededArt.Random

/-- States of type `σ` hand out draws of type `α`. -/
class Source (σ α : Type) where
  /-- The next draw and the state after it. -/
  next : σ → α × σ
  /-- A bound on the draws outside `[0, 1)` that are still to come. -/
  strays : σ → Nat

/-- Draws written down beforehand, and one that is repeated after them. -/
structure Script (α : Type) where
  pending : List α
  rest : α

/-- A script hands out its draws in order and then its last one for ever. -/
instance (α : Type) : Source (Script α) α where
  next s :=
    match s.pending with
    | [] => (s.rest, s)
    | draw :: pending => (draw, { s with pending })
  strays s := s.pending.length

/-- A source together with the number of draws taken from it. -/
structure Counted (σ : Type) where
  source : σ
  taken : Nat

/-- Counting changes no draw. -/
instance (σ α : Type) [Source σ α] : Source (Counted σ) α where
  next s :=
    let (draw, source) := Source.next s.source
    (draw, ⟨source, s.taken + 1⟩)
  strays s := @Source.strays σ α _ s.source

/-- A computation that takes draws. The state is kept when it fails, so that the draws taken by
then are known. -/
abbrev Drawing (ε σ : Type) := EStateM ε σ

def draw {ε σ α : Type} [Source σ α] : Drawing ε σ α := fun s =>
  let (value, s) := Source.next s
  .ok value s

end SeededArt.Random
