import Mathlib.Algebra.Ring.Nat
import SeededArt.Proofs.Expr.Reading
/-!
# Reading by slices

`parseSlices` reads an expression by positions in the UTF-8 bytes of a text: it looks for the
first parenthesis, keeps where the current argument starts while it counts parentheses, and takes
every name and argument out by a slice, which may be out of range. It reads what `parse` reads
(`parseSlices_eq`): no slice is ever out of range, and reading nests no deeper than the text is
long.
-/

namespace SeededArt.Expr

open Decimal Text

/-- Why reading by slices reads nothing. -/
inductive SliceFault where
  /-- No slice of the text runs from the first of these bytes to the second. -/
  | outOfRange (first last : Nat)
  /-- More levels of arguments than are allowed. -/
  | tooDeep
  | parse (cause : ParseFault)

def byteSize (cs : List Char) : Nat := (cs.map Char.utf8Size).sum

/-- What is left of a text after so many bytes, if they end between two characters. -/
def dropBytes? : Nat → List Char → Option (List Char)
  | 0, cs => some cs
  | _ + 1, [] => none
  | n + 1, c :: cs => if c.utf8Size ≤ n + 1 then dropBytes? (n + 1 - c.utf8Size) cs else none

/-- The characters of so many bytes, if they end between two characters. -/
def takeBytes? : Nat → List Char → Option (List Char)
  | 0, _ => some []
  | _ + 1, [] => none
  | n + 1, c :: cs =>
    if c.utf8Size ≤ n + 1 then (takeBytes? (n + 1 - c.utf8Size) cs).map (c :: ·) else none

/-- The slice of a text from a byte to a later one. -/
def slice (cs : List Char) (first last : Nat) : Except SliceFault (List Char) :=
  match if first ≤ last then (dropBytes? first cs).bind (takeBytes? (last - first)) else none with
  | some part => .ok part
  | none => .error (.outOfRange first last)

/-- The position of the first parenthesis that opens, from a position on. -/
def findOpen? (position : Nat) : List Char → Option Nat
  | [] => none
  | c :: cs => if c = '(' then some position else findOpen? (position + c.utf8Size) cs

/-- Reads arguments one after the other. `position` is the place of the next character, `start` the
place where the current argument starts, and `depth` counts the open parentheses. -/
def argumentsFrom (read : List Char → Except SliceFault (Expr Numeral)) (inner : List Char)
    (position start depth : Nat) (found : List (Expr Numeral)) :
    List Char → Except SliceFault (List (Expr Numeral))
  | [] =>
    if depth ≠ 0 then .error (.parse (.unbalanced (String.ofList inner)))
    else do
      let last ← slice inner start (byteSize inner)
      return found ++ [← read last]
  | c :: rest =>
    if c = '(' then argumentsFrom read inner (position + c.utf8Size) start (depth + 1) found rest
    else if c = ')' then
      match depth with
      | 0 => .error (.parse (.unbalanced (String.ofList inner)))
      | depth + 1 => argumentsFrom read inner (position + c.utf8Size) start depth found rest
    else if c = ',' ∧ depth = 0 then do
      let part ← slice inner start position
      let e ← read part
      argumentsFrom read inner (position + 1) (position + 1) 0 (found ++ [e]) rest
    else argumentsFrom read inner (position + c.utf8Size) start depth found rest

/-- Reads an expression of at most so many levels. -/
def parseSlices : Nat → List Char → Except SliceFault (Expr Numeral)
  | 0, _ => .error .tooDeep
  | levels + 1, cs =>
    match trim cs with
    | [] => .error (.parse .empty)
    | first :: others =>
      let input := first :: others
      if startsNumber first then
        match Numeral.readChars? input with
        | some value => .ok (.number value)
        | none => .error (.parse (.badNumber (String.ofList input)))
      else
        match findOpen? 0 input with
        | none => .error (.parse (.noCall (String.ofList input)))
        | some position =>
          if input.getLast? ≠ some ')' then .error (.parse (.unclosedCall (String.ofList input)))
          else do
            let name ← slice input 0 position
            if !isIdentifier (trim name) then throw (.parse (.badName (String.ofList (trim name))))
            else
              let inner ← slice input (position + 1) (byteSize input - 1)
              let arguments ← if trim inner = [] then pure []
                else argumentsFrom (parseSlices levels) inner 0 0 0 [] inner
              return .call (String.ofList (trim name)) arguments

/-! ## Slices between characters -/

section Slices

variable {cs ds rest : List Char}

theorem byteSize_append (cs ds : List Char) : byteSize (cs ++ ds) = byteSize cs + byteSize ds := by
  simp [byteSize]

theorem byteSize_cons (c : Char) (cs : List Char) :
    byteSize (c :: cs) = c.utf8Size + byteSize cs := by
  simp [byteSize]

theorem dropBytes?_append (cs rest : List Char) :
    dropBytes? (byteSize cs) (cs ++ rest) = some rest := by
  induction cs with
  | nil => rw [byteSize, List.map_nil, List.sum_nil, dropBytes?, List.nil_append]
  | cons c cs ih =>
    have hpos := c.utf8Size_pos
    obtain ⟨n, hn⟩ : ∃ n, c.utf8Size + byteSize cs = n + 1 :=
      ⟨c.utf8Size + byteSize cs - 1, by omega⟩
    have hrest : n + 1 - c.utf8Size = byteSize cs := by omega
    rw [byteSize_cons, hn, List.cons_append, dropBytes?, if_pos (by omega), hrest, ih]

theorem takeBytes?_append (cs rest : List Char) :
    takeBytes? (byteSize cs) (cs ++ rest) = some cs := by
  induction cs with
  | nil => rw [byteSize, List.map_nil, List.sum_nil, takeBytes?]
  | cons c cs ih =>
    have hpos := c.utf8Size_pos
    obtain ⟨n, hn⟩ : ∃ n, c.utf8Size + byteSize cs = n + 1 :=
      ⟨c.utf8Size + byteSize cs - 1, by omega⟩
    have hrest : n + 1 - c.utf8Size = byteSize cs := by omega
    rw [byteSize_cons, hn, List.cons_append, takeBytes?, if_pos (by omega), hrest, ih,
      Option.map_some]

theorem slice_append (cs ds rest : List Char) :
    slice (cs ++ (ds ++ rest)) (byteSize cs) (byteSize cs + byteSize ds) = .ok ds := by
  unfold slice
  rw [if_pos (Nat.le_add_right _ _), dropBytes?_append, Option.bind_some, Nat.add_sub_cancel_left,
    takeBytes?_append]

theorem splitCall?_cons (c : Char) (cs : List Char) :
    splitCall? (c :: cs) =
      if c = '(' then some ([], cs)
      else (splitCall? cs).map fun (name, rest) => (c :: name, rest) := by
  by_cases hc : c = '('
  · simp [splitCall?, hc]
  · unfold splitCall?
    rw [List.dropWhile_cons_of_pos (by simpa using hc),
      List.takeWhile_cons_of_pos (by simpa using hc), if_neg hc]
    cases cs.dropWhile (· != '(') <;> rfl

theorem findOpen?_eq (position : Nat) (cs : List Char) :
    findOpen? position cs = (splitCall? cs).map fun (name, _) => position + byteSize name := by
  induction cs generalizing position with
  | nil => rfl
  | cons c cs ih =>
    rw [findOpen?, splitCall?_cons]
    by_cases hc : c = '('
    · simp [hc, byteSize]
    · rw [if_neg hc, if_neg hc, ih, Option.map_map]
      congr 1
      funext p
      simp [byteSize_cons, Nat.add_assoc]

end Slices

/-! ## The loop over the characters of arguments -/

section Loop

variable {read : List Char → Except SliceFault (Expr Numeral)} {inner before piece rest : List Char}
  {depth : Nat} {found : List (Expr Numeral)}

/-- Reads pieces after what was found before them. -/
def readPiecesBy (read : List Char → Except SliceFault (Expr Numeral)) (p : Pieces)
    (inner : List Char) (found : List (Expr Numeral)) :
    Except SliceFault (List (Expr Numeral)) := do
  let ended ← p.ended.mapM read
  match p.last? with
  | none => .error (.parse (.unbalanced (String.ofList inner)))
  | some last => return found ++ (ended ++ [← read last])

theorem readPiecesBy_push (p : Pieces) (part : List Char) :
    readPiecesBy read (p.push part) inner found = (do
      let e ← read part
      readPiecesBy read p inner (found ++ [e])) := by
  unfold readPiecesBy Pieces.push
  rw [List.mapM_cons]
  cases read part with
  | error fault => rfl
  | ok e =>
    cases p.ended.mapM read with
    | error fault => rfl
    | ok es =>
      cases p.last? with
      | none => rfl
      | some last =>
        cases hlast : read last with
        | error fault => simp [hlast, bind, Except.bind, pure, Except.pure]
        | ok e => simp [hlast, bind, Except.bind, pure, Except.pure]

theorem slice_piece {part : List Char} (h : inner = before ++ (part ++ rest)) :
    slice inner (byteSize before) (byteSize before + byteSize part) = .ok part := by
  rw [h]
  exact slice_append before part rest

/-- The loop reads what cutting tells apart: its places are where the pieces start and end. -/
theorem argumentsFrom_eq (h : inner = before ++ (piece.reverse ++ rest)) :
    argumentsFrom read inner (byteSize before + byteSize piece.reverse) (byteSize before) depth
        found rest =
      readPiecesBy read (cutFrom depth piece rest) inner found := by
  induction rest generalizing before piece depth found with
  | nil =>
    have hsize : byteSize inner = byteSize before + byteSize piece.reverse := by
      rw [h, List.append_nil, byteSize_append]
    have hslice : slice inner (byteSize before) (byteSize inner) = .ok piece.reverse := by
      rw [hsize]
      exact slice_piece h
    rw [argumentsFrom, cutFrom.eq_def]
    by_cases hdepth : depth = 0
    · simp [hdepth, hslice, readPiecesBy, bind, Except.bind, pure, Except.pure]
    · simp [hdepth, readPiecesBy, bind, Except.bind, pure, Except.pure]
  | cons c rest ih =>
    -- a character that does not cut lengthens the piece
    have hextended {depth : Nat} :
        argumentsFrom read inner (byteSize before + byteSize piece.reverse + c.utf8Size)
            (byteSize before) depth found rest =
          readPiecesBy read (cutFrom depth (c :: piece) rest) inner found := by
      have hinner : inner = before ++ ((c :: piece).reverse ++ rest) := by
        rw [h, List.reverse_cons, List.append_assoc, List.singleton_append]
      have hsize : byteSize (c :: piece).reverse = byteSize piece.reverse + c.utf8Size := by
        rw [List.reverse_cons, byteSize_append, byteSize_cons]
        rfl
      rw [← ih hinner, hsize, Nat.add_assoc]
    rw [argumentsFrom.eq_def, cutFrom.eq_def]
    simp only
    split
    next => exact hextended
    next =>
      split
      next =>
        cases depth with
        | zero => rfl
        | succ depth => exact hextended
      next =>
        split
        next hcomma =>
          obtain ⟨rfl, rfl⟩ := hcomma
          have hinner : inner = (before ++ (piece.reverse ++ [','])) ++
              (([] : List Char).reverse ++ rest) := by
            rw [h]
            simp
          have hsize : byteSize before + byteSize piece.reverse + 1 =
              byteSize (before ++ (piece.reverse ++ [','])) := by
            rw [byteSize_append, byteSize_append, Nat.add_assoc]
            rfl
          rw [slice_piece h, readPiecesBy_push, hsize]
          show (do
            let e ← read piece.reverse
            argumentsFrom read inner _ _ 0 (found ++ [e]) rest) = _
          congr 1
          funext e
          exact ih hinner
        next => exact hextended

end Loop

/-! ## Reading by slices reads the same -/

section Same

variable {read : List Char → Except SliceFault (Expr Numeral)} {inner : List Char}

theorem mapM_eq_mapError {parts : List (List Char)}
    (h : ∀ part ∈ parts, read part = (parseChars part).mapError .parse) :
    parts.mapM read = (parts.mapM parseChars).mapError .parse := by
  induction parts with
  | nil => rfl
  | cons part parts ih =>
    obtain ⟨hpart, hparts⟩ := List.forall_mem_cons.1 h
    rw [List.mapM_cons, List.mapM_cons, hpart, ih hparts]
    cases parseChars part with
    | error fault => rfl
    | ok e => cases parts.mapM parseChars <;> rfl

theorem argumentsFrom_eq_readPieces
    (h : ∀ part ∈ (cut inner).toList, read part = (parseChars part).mapError .parse) :
    argumentsFrom read inner 0 0 0 [] inner = (readPieces (cut inner) inner).mapError .parse := by
  have hinner : inner = [] ++ (([] : List Char).reverse ++ inner) := rfl
  have hloop : argumentsFrom read inner 0 0 0 [] inner = readPiecesBy read (cut inner) inner [] :=
    argumentsFrom_eq hinner
  rw [hloop]
  unfold readPiecesBy readPieces
  unfold Pieces.toList at h
  rw [List.forall_mem_append] at h
  obtain ⟨hended, hlast⟩ := h
  rw [mapM_eq_mapError hended]
  cases (cut inner).ended.mapM parseChars with
  | error fault => rfl
  | ok es =>
    cases hsome : (cut inner).last? with
    | none => rfl
    | some last =>
      rw [hsome] at hlast
      have hread := hlast last (by simp)
      simp only [hread, bind, Except.bind, Except.mapError]
      cases parseChars last <;> rfl

end Same

theorem slice_name (name rest : List Char) :
    slice (name ++ rest) 0 (0 + byteSize name) = .ok name :=
  slice_append [] name rest

theorem slice_inner (name inner : List Char) :
    slice (name ++ '(' :: (inner ++ [')'])) (0 + byteSize name + 1)
        (byteSize (name ++ '(' :: (inner ++ [')'])) - 1) = .ok inner := by
  have hopen : byteSize (name ++ ['(']) = 0 + byteSize name + 1 := by
    rw [byteSize_append, Nat.zero_add]
    rfl
  have hclose : byteSize (name ++ '(' :: (inner ++ [')'])) - 1 =
      byteSize (name ++ ['(']) + byteSize inner := by
    rw [← List.singleton_append (l := inner ++ [')']), ← List.append_assoc, byteSize_append,
      byteSize_append inner]
    show byteSize (name ++ ['(']) + (byteSize inner + 1) - 1 = _
    omega
  rw [hclose, ← hopen, ← List.singleton_append (l := inner ++ [')']), ← List.append_assoc]
  exact slice_append (name ++ ['(']) inner [')']

/-- With as many levels as a text has characters, and one more, reading by slices reads what the
text says: no slice is out of range, and no more levels are needed. -/
theorem parseSlices_eq {levels : Nat} {cs : List Char} (h : cs.length < levels) :
    parseSlices levels cs = (parseChars cs).mapError .parse := by
  induction levels generalizing cs with
  | zero => omega
  | succ levels ih =>
    rw [parseSlices, parseChars_eq]
    have htrim := length_trim_le cs
    cases hinput : trim cs with
    | nil => rfl
    | cons first others =>
      rw [hinput] at htrim
      simp only
      split
      next => cases Numeral.readChars? (first :: others) <;> rfl
      next =>
        rw [findOpen?_eq]
        unfold readCall
        cases hsplit : splitCall? (first :: others) with
        | none => rfl
        | some call =>
          obtain ⟨name, rest⟩ := call
          obtain ⟨hcall, -⟩ := splitCall?_eq_some_iff.1 hsplit
          rw [hcall] at htrim ⊢
          simp only [Option.map_some]
          split
          next => rfl
          next hlast =>
            obtain ⟨inner, rfl⟩ := exists_inner_of_getLast? (not_not.1 hlast)
            have hpieces : ∀ part ∈ (cut inner).toList,
                parseSlices levels part = (parseChars part).mapError .parse := by
              intro part hpart
              have hlength := length_le_of_mem_cut hpart
              simp only [List.length_append, List.length_cons] at htrim
              exact ih (by omega)
            rw [slice_name, slice_inner, List.dropLast_concat]
            simp only [bind, Except.bind]
            split
            next => rfl
            next =>
              unfold readArguments
              split
              next => rfl
              next =>
                rw [argumentsFrom_eq_readPieces hpieces]
                cases readPieces (cut inner) inner <;> rfl

end SeededArt.Expr
