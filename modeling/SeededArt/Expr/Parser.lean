import SeededArt.Decimal.Numeral
import SeededArt.Expr.Basic
import SeededArt.Text.Quoted
/-!
# Reading expressions

A text is read as a number if it starts like one, else as a name followed by arguments in
parentheses. Blanks around every name, argument and number do not count. The arguments are cut at
the commas outside inner parentheses, and each piece is read as an expression of its own; pieces
are shorter than the text, so reading ends.
-/

namespace SeededArt

open Decimal Text

/-- Why a text is no expression. -/
inductive ParseFault where
  | empty
  | badNumber (text : String)
  | noCall (text : String)
  | unclosedCall (text : String)
  | badName (name : String)
  | unbalanced (arguments : String)
deriving DecidableEq, Repr

def ParseFault.message : ParseFault → String
  | empty => "Empty expression"
  | badNumber text => s!"Invalid number: {text}"
  | noCall text => s!"Expected a call or a number, found: {text}"
  | unclosedCall text => s!"Unclosed function call: {text}"
  | badName name => "Invalid function name: " ++ quoted name
  | unbalanced arguments => s!"Unbalanced parentheses in: {arguments}"

namespace Expr

/-- Whether a number starts with this character. -/
def startsNumber (c : Char) : Bool := c.isDigit || c == '-' || c == '.'

/-- Whether a name can start with this character. -/
def startsName (c : Char) : Bool := c.isAlpha || c == '_'

/-- Whether a text is a letter or underscore followed by letters, digits and underscores. -/
def isIdentifier : List Char → Bool
  | [] => false
  | c :: rest => startsName c && rest.all fun c => c.isAlphanum || c == '_'

/-- Arguments cut at their commas: the pieces that a comma ends, and the piece after the last
comma if all parentheses are closed by then. -/
structure Pieces where
  ended : List (List Char)
  last? : Option (List Char)

/-- Puts a piece before the others. -/
def Pieces.push (piece : List Char) (p : Pieces) : Pieces := { p with ended := piece :: p.ended }

/-- Cuts a text at the commas outside parentheses. `depth` counts the open parentheses and `piece`
holds, reversed, the piece that is being read. -/
def cutFrom (depth : Nat) (piece : List Char) : List Char → Pieces
  | [] => ⟨[], if depth = 0 then some piece.reverse else none⟩
  | c :: rest =>
    if c = '(' then cutFrom (depth + 1) (c :: piece) rest
    else if c = ')' then
      match depth with
      | 0 => ⟨[], none⟩
      | depth + 1 => cutFrom depth (c :: piece) rest
    else if c = ',' ∧ depth = 0 then (cutFrom 0 [] rest).push piece.reverse
    else cutFrom depth (c :: piece) rest

def cut (cs : List Char) : Pieces := cutFrom 0 [] cs

def Pieces.toList (p : Pieces) : List (List Char) := p.ended ++ p.last?.toList

theorem length_le_of_mem_cutFrom {depth : Nat} {piece cs part : List Char}
    (h : part ∈ (cutFrom depth piece cs).toList) : part.length ≤ piece.length + cs.length := by
  induction cs generalizing depth piece with
  | nil =>
    unfold cutFrom at h
    split at h <;> simp_all [Pieces.toList]
  | cons c rest ih =>
    have extended : ∀ {depth}, part ∈ (cutFrom depth (c :: piece) rest).toList →
        part.length ≤ piece.length + (c :: rest).length := fun h => by
      have := ih h
      simp at this ⊢
      omega
    unfold cutFrom at h
    split at h
    next => exact extended h
    next =>
      split at h
      next =>
        split at h
        next => simp [Pieces.toList] at h
        next => exact extended h
      next =>
        split at h
        next =>
          rcases List.mem_cons.1 h with rfl | h
          · simp
          · have := ih h
            simp at this ⊢
            omega
        next => exact extended h

theorem length_le_of_mem_cut {cs part : List Char} (h : part ∈ (cut cs).toList) :
    part.length ≤ cs.length := by
  simpa using length_le_of_mem_cutFrom h

/-- Cuts a call at its first parenthesis: what stands before it and after it. -/
def splitCall? (cs : List Char) : Option (List Char × List Char) :=
  match cs.dropWhile (· != '(') with
  | [] => none
  | _ :: rest => some (cs.takeWhile (· != '('), rest)

theorem length_lt_of_splitCall? {cs name rest : List Char}
    (h : splitCall? cs = some (name, rest)) : rest.length < cs.length := by
  unfold splitCall? at h
  split at h
  next => simp at h
  next c tail htail =>
    simp only [Option.some.injEq, Prod.mk.injEq] at h
    have := (List.dropWhile_sublist (l := cs) (· != '(')).length_le
    rw [htail] at this
    simp [← h.2] at this ⊢
    omega

/-- Reads an expression. -/
def parseChars (cs : List Char) : Except ParseFault (Expr Numeral) :=
  match htrim : trim cs with
  | [] => .error .empty
  | first :: others =>
    let text := String.ofList (first :: others)
    if startsNumber first then
      match Numeral.readChars? (first :: others) with
      | some value => .ok (.number value)
      | none => .error (.badNumber text)
    else
      match hcall : splitCall? (first :: others) with
      | none => .error (.noCall text)
      | some (name, rest) =>
        if (first :: others).getLast? ≠ some ')' then .error (.unclosedCall text)
        else
          let name := trim name
          if !isIdentifier name then .error (.badName (String.ofList name))
          else
            let inner := rest.dropLast
            if trim inner = [] then .ok (.call (String.ofList name) [])
            else
              let pieces := cut inner
              have shorter : ∀ part ∈ pieces.toList, part.length < cs.length := fun part hpart => by
                have h1 : part.length ≤ inner.length := length_le_of_mem_cut hpart
                have h2 := length_lt_of_splitCall? hcall
                have h3 := length_trim_le cs
                rw [htrim] at h3
                have h4 : inner.length ≤ rest.length := by simp [inner]
                omega
              do
                let ended ← pieces.ended.attach.mapM fun ⟨part, hpart⟩ =>
                  have := shorter part (by simp [Pieces.toList, hpart])
                  parseChars part
                match hlast : pieces.last? with
                | none => .error (.unbalanced (String.ofList inner))
                | some part =>
                  have := shorter part (by simp [Pieces.toList, hlast])
                  let last ← parseChars part
                  return .call (String.ofList name) (ended ++ [last])
termination_by cs.length

def parse (text : String) : Except ParseFault (Expr Numeral) := parseChars text.toList

end Expr

end SeededArt
