import SeededArt.Expr.Parser
import SeededArt.Grammar.Builtin
import SeededArt.Proofs.Numbers.Double
import SeededArt.Proofs.Numbers.Exact
/-!
# The grammars of the library are grammars

All of them can be assembled, over doubles and over exact numbers, and all start with the rule `E`.
Their functions have identifiers for names (`Grammar.NamesAreIdentifiers`), which is what reading a
synthesized text back takes.
-/

namespace SeededArt

section Names

variable {α : Type} [Arithmetic α]

/-- Every alternative but those that stand for a constant emits an identifier. -/
def Grammar.NamesAreIdentifiers (g : Grammar α) : Prop :=
  ∀ r ∈ g.rules, ∀ a ∈ r.alternatives, a.isConstant = false →
    Expr.isIdentifier a.emit.toList = true

instance (g : Grammar α) : Decidable g.NamesAreIdentifiers :=
  inferInstanceAs (Decidable (∀ r ∈ g.rules, ∀ a ∈ r.alternatives, a.isConstant = false →
    Expr.isIdentifier a.emit.toList = true))

end Names

namespace Builtin

variable {α : Type} [Arithmetic α]

/-- A grammar is assembled that passes a check. -/
def assembles (check : Grammar α → Bool) (name : String) (rules : List (Rule α)) : Bool :=
  match assemble name rules with
  | .ok g => check g
  | .error _ => false

theorem exists_assemble {check : Grammar α → Bool} {name : String} {rules : List (Rule α)}
    (h : assembles check name rules = true) :
    ∃ g, assemble name rules = .ok g ∧ check g = true := by
  unfold assembles at h
  split at h
  next g hg => exact ⟨g, hg, h⟩
  next => cases h

/-- The check that there is the rule `E`, and that the names are identifiers. -/
def isNamed (g : Grammar α) : Bool := g.has "E" && decide g.NamesAreIdentifiers

theorem isNamed_iff {g : Grammar α} :
    isNamed g = true ↔ g.has "E" = true ∧ g.NamesAreIdentifiers := by
  unfold isNamed
  rw [Bool.and_eq_true, decide_eq_true_iff]

theorem exists_assemble_float {p : String × List (Rule Float)} (hp : p ∈ tables) :
    ∃ g, assemble p.1 p.2 = .ok g ∧ g.has "E" = true ∧ g.NamesAreIdentifiers := by
  have hall : ∀ p ∈ tables (α := Float), assembles isNamed p.1 p.2 = true := by decide +kernel
  obtain ⟨g, hg, hnamed⟩ := exists_assemble (hall p hp)
  exact ⟨g, hg, isNamed_iff.1 hnamed⟩

theorem exists_assemble_rat {p : String × List (Rule ℚ)} (hp : p ∈ tables) :
    ∃ g, assemble p.1 p.2 = .ok g ∧ g.has "E" = true ∧ g.NamesAreIdentifiers := by
  have hall : ∀ p ∈ tables (α := ℚ), assembles isNamed p.1 p.2 = true := by decide +kernel
  obtain ⟨g, hg, hnamed⟩ := exists_assemble (hall p hp)
  exact ⟨g, hg, isNamed_iff.1 hnamed⟩

end Builtin

end SeededArt
