import Mathlib.Data.List.Forall2
/-!
# Computations that can fail

Of two steps one after the other both succeed if their result is a value (`exists_of_bind_eq_ok`).
A step that is made for every item of a list succeeds exactly if it does for each item
(`mapM_eq_ok_iff`), and else fails as it does for the first item that has a fault
(`faultOf?_mapM`, `mapM_eq_error_iff`).
-/

namespace SeededArt

variable {β γ δ ε : Type}

theorem exists_of_bind_eq_ok {x : Except ε β} {f : β → Except ε γ} {c : γ}
    (h : x >>= f = .ok c) : ∃ b, x = .ok b ∧ f b = .ok c := by
  cases x with
  | error => cases h
  | ok b => exact ⟨b, rfl, h⟩

theorem exists_of_isOk {x : Except ε β} (h : x.isOk = true) : ∃ b, x = .ok b := by
  cases x with
  | error => cases h
  | ok b => exact ⟨b, rfl⟩

theorem mapM_eq_ok_iff {f : β → Except ε γ} {items : List β} {cs : List γ} :
    items.mapM f = .ok cs ↔ List.Forall₂ (fun i c => f i = .ok c) items cs := by
  induction items generalizing cs with
  | nil =>
    rw [List.mapM_nil, List.forall₂_nil_left_iff]
    exact ⟨fun h => (Except.ok.inj h).symm, fun h => h ▸ rfl⟩
  | cons i items ih =>
    rw [List.mapM_cons, List.forall₂_cons_left_iff]
    constructor
    · intro h
      obtain ⟨c, hc, h⟩ := exists_of_bind_eq_ok h
      obtain ⟨rest, hrest, h⟩ := exists_of_bind_eq_ok h
      exact ⟨c, rest, hc, ih.1 hrest, (Except.ok.inj h).symm⟩
    · rintro ⟨c, rest, hc, hrest, rfl⟩
      rw [hc, ih.2 hrest]
      rfl

theorem exists_mapM_eq_ok {f : β → Except ε γ} {items : List β}
    (h : ∀ i ∈ items, ∃ c, f i = .ok c) : ∃ cs, items.mapM f = .ok cs := by
  induction items with
  | nil => exact ⟨[], rfl⟩
  | cons i items ih =>
    obtain ⟨⟨c, hc⟩, hitems⟩ := List.forall_mem_cons.1 h
    obtain ⟨cs, hcs⟩ := ih hitems
    exact ⟨c :: cs, mapM_eq_ok_iff.2 (.cons hc (mapM_eq_ok_iff.1 hcs))⟩

theorem mapM_map_eq_ok {f : γ → Except ε δ} {g : β → γ} {h : β → δ} {items : List β}
    (hf : ∀ i ∈ items, f (g i) = .ok (h i)) : (items.map g).mapM f = .ok (items.map h) := by
  rw [mapM_eq_ok_iff, List.forall₂_map_left_iff, List.forall₂_map_right_iff]
  exact List.forall₂_same.2 hf

/-- The fault of a computation, if it fails. -/
def faultOf? : Except ε β → Option ε
  | .ok _ => none
  | .error e => some e

theorem faultOf?_eq_some_iff {x : Except ε β} {e : ε} : faultOf? x = some e ↔ x = .error e := by
  cases x <;> simp [faultOf?]

theorem faultOf?_eq_none_iff {x : Except ε β} : faultOf? x = none ↔ ∃ b, x = .ok b := by
  cases x <;> simp [faultOf?]

/-- A step that is made for every item has the first fault of the items. -/
theorem faultOf?_mapM (f : β → Except ε γ) (items : List β) :
    faultOf? (items.mapM f) = items.findSome? fun i => faultOf? (f i) := by
  induction items with
  | nil => rw [List.mapM_nil, List.findSome?_nil]; rfl
  | cons i items ih =>
    rw [List.mapM_cons, List.findSome?_cons]
    cases f i with
    | error e => rfl
    | ok c =>
      show _ = items.findSome? fun i => faultOf? (f i)
      rw [← ih]
      cases items.mapM f <;> rfl

theorem mapM_eq_error_iff {f : β → Except ε γ} {items : List β} {e : ε} :
    items.mapM f = .error e ↔ ∃ before i after, items = before ++ i :: after ∧
      (∀ j ∈ before, ∃ c, f j = .ok c) ∧ f i = .error e := by
  rw [← faultOf?_eq_some_iff, faultOf?_mapM, List.findSome?_eq_some_iff]
  simp only [faultOf?_eq_some_iff, faultOf?_eq_none_iff]
  exact exists_congr fun before => exists_congr fun i => exists_congr fun after =>
    and_congr_right fun _ => and_comm

end SeededArt
