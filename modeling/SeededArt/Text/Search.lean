/-!
# Searching a text

`splitAround pattern text` cuts a text at the first occurrence of a pattern, and
`occurrences pattern text` counts occurrences from the left that do not overlap.
-/

namespace SeededArt.Text

/-- What follows the pattern, if the text begins with it. -/
def afterStart? : (pattern text : List Char) → Option (List Char)
  | [], text => some text
  | _ :: _, [] => none
  | p :: pattern, c :: text => if p = c then afterStart? pattern text else none

theorem afterStart?_eq_some_iff {pattern text after : List Char} :
    afterStart? pattern text = some after ↔ text = pattern ++ after := by
  induction pattern generalizing text with
  | nil => simp [afterStart?]
  | cons p pattern ih =>
    cases text with
    | nil => simp [afterStart?]
    | cons c text =>
      simp only [afterStart?, List.cons_append, List.cons.injEq]
      split
      next heq => simp [ih, heq]
      next hne => simp [Ne.symm hne]

/-- What stands before and after the first occurrence of the pattern. -/
def splitAround (pattern : List Char) : List Char → Option (List Char × List Char)
  | [] => (afterStart? pattern []).map fun after => ([], after)
  | c :: rest =>
    match afterStart? pattern (c :: rest) with
    | some after => some ([], after)
    | none => (splitAround pattern rest).map fun (before, after) => (c :: before, after)

theorem eq_append_of_splitAround {pattern text before after : List Char}
    (h : splitAround pattern text = some (before, after)) : text = before ++ pattern ++ after := by
  induction text generalizing before with
  | nil =>
    simp only [splitAround, Option.map_eq_some_iff, Prod.mk.injEq] at h
    obtain ⟨rest, hrest, rfl, rfl⟩ := h
    simpa using afterStart?_eq_some_iff.1 hrest
  | cons c text ih =>
    simp only [splitAround] at h
    split at h
    next rest hrest =>
      simp only [Option.some.injEq, Prod.mk.injEq] at h
      obtain ⟨rfl, rfl⟩ := h
      simpa using afterStart?_eq_some_iff.1 hrest
    next =>
      simp only [Option.map_eq_some_iff, Prod.mk.injEq] at h
      obtain ⟨⟨inner, rest⟩, hsplit, rfl, rfl⟩ := h
      simp [ih hsplit]

/-- Counts occurrences, from the left, that begin at least `skip` characters on and do not
overlap. -/
def occurrencesFrom (pattern : List Char) : Nat → List Char → Nat
  | _, [] => 0
  | skip + 1, _ :: rest => occurrencesFrom pattern skip rest
  | 0, c :: rest =>
    if (afterStart? pattern (c :: rest)).isSome then
      occurrencesFrom pattern (pattern.length - 1) rest + 1
    else occurrencesFrom pattern 0 rest

/-- Counts occurrences, from the left, that do not overlap. -/
def occurrences (pattern text : List Char) : Nat := occurrencesFrom pattern 0 text

/-- Replaces the first occurrence of the pattern. -/
def replaceFirst (pattern replacement text : List Char) : List Char :=
  match splitAround pattern text with
  | none => text
  | some (before, after) => before ++ replacement ++ after

end SeededArt.Text
