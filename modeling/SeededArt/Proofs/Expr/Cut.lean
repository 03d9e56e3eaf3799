import SeededArt.Expr.Parser
import SeededArt.Proofs.Text.Blank
/-!
# Cutting arguments apart

A text is `Closed` if cutting runs through it and comes out at the depth at which it went in, with
no comma cut: texts without parentheses and commas are, and so is what stands in parentheses around
closed arguments (`closed_parentheses`). Cutting closed arguments at the commas between them gives
the arguments back (`cutFrom_listing`), and whatever cutting gives is what stood between the commas
(`exists_listing_of_cutFrom`).
-/

namespace SeededArt.Expr

open Text

/-- Cutting runs through the text, at the depths that are allowed. -/
def ClosedFrom (least : Nat) (cs : List Char) : Prop :=
  ∀ depth, least ≤ depth → ∀ piece rest,
    cutFrom depth piece (cs ++ rest) = cutFrom depth (cs.reverse ++ piece) rest

/-- Cutting runs through the text and comes out at the depth at which it went in. -/
abbrev Closed (cs : List Char) : Prop := ClosedFrom 0 cs

/-- A character that neither opens, nor closes, nor cuts. -/
def IsPlain (c : Char) : Prop := c ≠ '(' ∧ c ≠ ')' ∧ c ≠ ','

section Steps

variable (depth : Nat) (piece rest : List Char)

theorem cutFrom_plain {c : Char} (h : IsPlain c) :
    cutFrom depth piece (c :: rest) = cutFrom depth (c :: piece) rest := by
  rw [cutFrom.eq_def]
  simp [h.1, h.2.1, h.2.2]

theorem cutFrom_open :
    cutFrom depth piece ('(' :: rest) = cutFrom (depth + 1) ('(' :: piece) rest := by
  rw [cutFrom.eq_def]
  simp

theorem cutFrom_close :
    cutFrom (depth + 1) piece (')' :: rest) = cutFrom depth (')' :: piece) rest := by
  rw [cutFrom.eq_def]
  simp

theorem cutFrom_comma : cutFrom 0 piece (',' :: rest) = (cutFrom 0 [] rest).push piece.reverse := by
  rw [cutFrom.eq_def]
  simp

theorem cutFrom_comma_inside :
    cutFrom (depth + 1) piece (',' :: rest) = cutFrom (depth + 1) (',' :: piece) rest := by
  rw [cutFrom.eq_def]
  simp

theorem cutFrom_nil : cutFrom 0 piece [] = ⟨[], some piece.reverse⟩ := by
  rw [cutFrom.eq_def]
  simp

end Steps

section Closed

variable {least : Nat} {cs ds : List Char}

theorem ClosedFrom.mono {more : Nat} (h : ClosedFrom least cs) (hle : least ≤ more) :
    ClosedFrom more cs := by
  intro depth hdepth
  exact h depth (hle.trans hdepth)

theorem closedFrom_nil : ClosedFrom least [] := by
  intro _ _ _ _
  exact rfl

theorem ClosedFrom.append (hc : ClosedFrom least cs) (hd : ClosedFrom least ds) :
    ClosedFrom least (cs ++ ds) := by
  intro depth hdepth piece rest
  rw [List.append_assoc, hc depth hdepth, hd depth hdepth, List.reverse_append, List.append_assoc]

theorem closed_of_isPlain (h : ∀ c ∈ cs, IsPlain c) : Closed cs := by
  induction cs with
  | nil => exact closedFrom_nil
  | cons c cs ih =>
    obtain ⟨hc, hcs⟩ := List.forall_mem_cons.1 h
    intro depth hdepth piece rest
    rw [List.cons_append, cutFrom_plain _ _ _ hc, ih hcs depth hdepth, List.reverse_cons,
      List.append_assoc]
    rfl

theorem closedFrom_comma : ClosedFrom 1 [','] := by
  intro depth hdepth piece rest
  obtain ⟨n, rfl⟩ := Nat.exists_eq_add_of_le' hdepth
  exact cutFrom_comma_inside n piece rest

theorem closed_parentheses (h : ClosedFrom 1 cs) : Closed ('(' :: (cs ++ [')'])) := by
  intro depth _ piece rest
  rw [List.cons_append, List.append_assoc, cutFrom_open, h (depth + 1) (by omega),
    List.singleton_append, cutFrom_close]
  simp

end Closed

/-! ## Arguments with commas between them -/

/-- Arguments with a comma between them: the first, and the others. -/
def listing (first : List Char) (rest : List (List Char)) : List Char :=
  first ++ rest.flatMap (',' :: ·)

section Listing

variable {depth : Nat} {piece cs last : List Char} {parts ended : List (List Char)}

theorem listing_nil (cs : List Char) : listing cs [] = cs := by simp [listing]

theorem listing_cons (cs ds : List Char) (parts : List (List Char)) :
    listing cs (ds :: parts) = cs ++ ',' :: listing ds parts := by simp [listing]

theorem append_listing (cs ds : List Char) (parts : List (List Char)) :
    cs ++ listing ds parts = listing (cs ++ ds) parts := by
  rw [listing, listing, List.append_assoc]

/-- Inside parentheses no argument is cut off. -/
theorem closedFrom_listing (h : ∀ ds ∈ cs :: parts, Closed ds) :
    ClosedFrom 1 (listing cs parts) := by
  induction parts generalizing cs with
  | nil =>
    rw [listing_nil]
    exact (h cs List.mem_cons_self).mono (Nat.zero_le 1)
  | cons ds parts ih =>
    obtain ⟨hcs, hrest⟩ := List.forall_mem_cons.1 h
    rw [listing_cons]
    exact (hcs.mono (Nat.zero_le 1)).append (closedFrom_comma.append (ih hrest))

/-- Cutting gives the arguments back. -/
theorem cutFrom_listing (h : ∀ ds ∈ cs :: parts, Closed ds) (piece : List Char) :
    ∃ ended last, cutFrom 0 piece (listing cs parts) = ⟨ended, some last⟩ ∧
      ended ++ [last] = (piece.reverse ++ cs) :: parts := by
  induction parts generalizing cs piece with
  | nil =>
    have hcs := h cs List.mem_cons_self 0 le_rfl piece []
    refine ⟨[], piece.reverse ++ cs, ?_, rfl⟩
    rw [List.append_nil] at hcs
    rw [listing_nil, hcs, cutFrom_nil, List.reverse_append, List.reverse_reverse]
  | cons ds parts ih =>
    obtain ⟨hcs, hrest⟩ := List.forall_mem_cons.1 h
    obtain ⟨ended, last, hcut, hparts⟩ := ih hrest []
    refine ⟨(piece.reverse ++ cs) :: ended, last, ?_, ?_⟩
    · rw [listing_cons, hcs 0 le_rfl, cutFrom_comma, hcut, Pieces.push, List.reverse_append,
        List.reverse_reverse]
    · rw [List.cons_append, hparts]
      rfl

/-- What cutting gives are the arguments between the commas. -/
theorem exists_listing_of_cutFrom (h : cutFrom depth piece cs = ⟨ended, some last⟩) :
    ∃ first rest, ended ++ [last] = first :: rest ∧ piece.reverse ++ cs = listing first rest := by
  induction cs generalizing depth piece ended with
  | nil =>
    simp only [cutFrom, Pieces.mk.injEq, Option.ite_none_right_eq_some, Option.some.injEq] at h
    obtain ⟨rfl, -, rfl⟩ := h
    exact ⟨piece.reverse, [], rfl, by rw [listing_nil, List.append_nil]⟩
  | cons c cs ih =>
    have extended {depth : Nat} (h : cutFrom depth (c :: piece) cs = ⟨ended, some last⟩) :
        ∃ first rest, ended ++ [last] = first :: rest ∧
          piece.reverse ++ c :: cs = listing first rest := by
      simpa using ih h
    rw [cutFrom.eq_def] at h
    simp only at h
    split at h
    next => exact extended h
    next =>
      split at h
      next =>
        cases depth with
        | zero => cases h
        | succ depth => exact extended h
      next =>
        split at h
        next hcomma =>
          -- the piece ends here, and what follows is cut on its own
          obtain ⟨rfl, -⟩ := hcomma
          generalize hcut : cutFrom 0 [] cs = p at h
          obtain ⟨ended', last?⟩ := p
          rw [Pieces.push, Pieces.mk.injEq] at h
          obtain ⟨rfl, rfl⟩ := h
          obtain ⟨first, rest, hparts, hcs⟩ := ih hcut
          refine ⟨piece.reverse, first :: rest, by rw [List.cons_append, hparts], ?_⟩
          rw [listing_cons, ← hcs]
          rfl
        next => exact extended h

end Listing

/-! ## Arguments with commas and spaces between them -/

/-- Arguments with a comma and a space between them. -/
def join (parts : List (List Char)) : List Char := [',', ' '].intercalate parts

theorem join_cons (cs : List Char) (parts : List (List Char)) :
    join (cs :: parts) = listing cs (parts.map (' ' :: ·)) := by
  induction parts generalizing cs with
  | nil => rw [join, List.intercalate_singleton, List.map_nil, listing_nil]
  | cons ds parts ih =>
    rw [List.map_cons, listing_cons, ← List.singleton_append (l := ds), ← append_listing, ← ih,
      join, List.intercalate_cons_cons, join]
    simp

theorem exists_join_cons (cs : List Char) (parts : List (List Char)) :
    ∃ tail, join (cs :: parts) = cs ++ tail :=
  ⟨_, join_cons cs parts⟩

theorem toList_intercalate_separator (texts : List String) :
    (separator.intercalate texts).toList = join (texts.map String.toList) := by
  rw [String.toList_intercalate]
  rfl

theorem closed_spaced {cs : List Char} {parts : List (List Char)}
    (h : ∀ ds ∈ cs :: parts, Closed ds) : ∀ ds ∈ cs :: parts.map (' ' :: ·), Closed ds := by
  obtain ⟨hcs, hparts⟩ := List.forall_mem_cons.1 h
  have hspace : Closed [' '] := closed_of_isPlain (by simp [IsPlain])
  rw [List.forall_mem_cons, List.forall_mem_map]
  exact ⟨hcs, fun ds hds => hspace.append (hparts ds hds)⟩

theorem closedFrom_join {parts : List (List Char)} (h : ∀ cs ∈ parts, Closed cs) :
    ClosedFrom 1 (join parts) := by
  cases parts with
  | nil => exact closedFrom_nil
  | cons cs parts =>
    rw [join_cons]
    exact closedFrom_listing (closed_spaced h)

/-- Cutting gives the arguments back, each but the first with the space before it. -/
theorem cutFrom_join {cs : List Char} {parts : List (List Char)}
    (h : ∀ ds ∈ cs :: parts, Closed ds) (piece : List Char) :
    ∃ ended last, cutFrom 0 piece (join (cs :: parts)) = ⟨ended, some last⟩ ∧
      ended ++ [last] = (piece.reverse ++ cs) :: parts.map (' ' :: ·) := by
  rw [join_cons]
  exact cutFrom_listing (closed_spaced h) piece

end SeededArt.Expr
