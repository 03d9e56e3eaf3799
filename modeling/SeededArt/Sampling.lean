import SeededArt.Random.Source
/-!
# Weighted choice

One draw `u` is scaled by the total weight `W`; the choice is the first item whose running sum of
weights exceeds `u * W`. Over exact numbers an item of weight `w` is so chosen by an interval of
draws of length `w / W`. An item of weight zero is passed over, because the running sum does not
grow at it.
-/

namespace SeededArt

open SeededArt.Random

/-- No running sum exceeded the target. -/
structure NothingChosen (α : Type) where
  /-- How many items there were. -/
  count : Nat
  /-- The scaled draw. -/
  target : α
  /-- The total weight. -/
  total : α

variable {α β : Type} [Arithmetic α]

/-- The first item at which the running sum, which starts at `sum`, exceeds the target. -/
def firstAbove (weight : β → α) (target : α) : α → List β → Option β
  | _, [] => none
  | sum, item :: rest =>
    let sum := sum + weight item
    if Arithmetic.less target sum then some item else firstAbove weight target sum rest

/-- The item that a draw chooses. -/
def choose (weight : β → α) (items : List β) (draw : α) : Except (NothingChosen α) β :=
  let total := Arithmetic.total (items.map weight)
  let target := draw * total
  match firstAbove weight target 0.0 items with
  | some item => .ok item
  | none => .error ⟨items.length, target, total⟩

/-- Chooses with the next draw. -/
def pick {σ : Type} [Source σ α] (weight : β → α) (items : List β) :
    Drawing (NothingChosen α) σ β := do
  let u : α ← draw
  match choose weight items u with
  | .ok item => pure item
  | .error fault => throw fault

theorem mem_of_firstAbove {weight : β → α} {target sum : α} {items : List β} {item : β}
    (h : firstAbove weight target sum items = some item) : item ∈ items := by
  induction items generalizing sum with
  | nil => simp [firstAbove] at h
  | cons first rest ih =>
    simp only [firstAbove] at h
    split at h
    next => simp_all
    next => exact List.mem_cons_of_mem _ (ih h)

end SeededArt
