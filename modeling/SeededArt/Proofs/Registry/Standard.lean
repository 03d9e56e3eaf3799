import SeededArt.Proofs.Registry.Loading
import SeededArt.Proofs.Synthesis.Drawable
/-!
# The registry of the library

The grammars of the library have different names, so the registry holds all of them
(`Registry.exists_standard`).
-/

namespace SeededArt

namespace Registry

section Adding

variable {α ε : Type} [Arithmetic α] {r : Registry α} {gs : List (Grammar α)}

theorem foldlM_insert_of_addable (h : r.Addable gs) :
    gs.foldlM (insert (ε := ε)) r = .ok (r.extend gs) := by
  induction gs generalizing r with
  | nil =>
    rw [extend_nil]
    rfl
  | cons g gs ih =>
    obtain ⟨hfirst, hothers⟩ := addable_cons_iff.1 h
    rw [List.foldlM_cons, insert_of_not_contains hfirst]
    show gs.foldlM (insert (ε := ε)) (r.extend [g]) = _
    rw [ih hothers, extend_extend]
    rfl

end Adding

end Registry

theorem Builtin.exists_all :
    ∃ gs : List (Grammar Float), all = .ok gs ∧ gs.map (·.name) = names ∧
      ∀ g ∈ gs, g.IsDrawable := by
  have hcheck : (match all (α := Float) with
      | .ok gs => decide (gs.map (·.name) = names ∧ ∀ g ∈ gs, g.DrawableBy ["A", "C"])
      | .error _ => false) = true := by
    decide +kernel
  split at hcheck
  next gs hall =>
    obtain ⟨hnames, hdrawable⟩ := of_decide_eq_true hcheck
    exact ⟨gs, hall, hnames, fun g hg => (hdrawable g hg).isDrawable⟩
  next => cases hcheck

/-- The registry of the library holds a drawable grammar for each of its names, and no others. -/
theorem Registry.exists_standard :
    ∃ r : Registry Float, (∀ ε : Type, standard (ε := ε) = .ok r) ∧
      Builtin.all = .ok r.grammars ∧ r.grammars.map (·.name) = Builtin.names ∧
      ∀ g ∈ r.grammars, g.IsDrawable := by
  obtain ⟨gs, hall, hnames, hdrawable⟩ := Builtin.exists_all
  have hadd : ({} : Registry Float).Addable gs := by
    refine ⟨fun _ _ => rfl, ?_⟩
    rw [hnames]
    decide
  refine ⟨⟨gs⟩, fun ε => ?_, hall, hnames, hdrawable⟩
  unfold standard
  rw [hall]
  exact foldlM_insert_of_addable hadd

end SeededArt
