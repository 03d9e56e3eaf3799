import SeededArt.Yaml.Lexeme
/-!
# Scalars of a YAML text

Readers of plain, quoted and block scalars. Line breaks inside a scalar fold: one break becomes a
space, of several breaks all but the first remain. In a block scalar only folded style does so, and
only between two lines that start without a blank.
-/

namespace SeededArt.Yaml

open Cursor
open Text (hexValue?)

/-- Blanks and line breaks between two words of a scalar. -/
structure Gap where
  /-- Blanks before the first break. -/
  blanks : List Char := []
  /-- The first break. -/
  first : List Char := []
  /-- The breaks after the first. -/
  others : List Char := []
  /-- Whether there was a break. -/
  broken : Bool := false

/-- What a gap leaves of itself. -/
def Gap.fold (g : Gap) : List Char :=
  if g.broken then
    if g.first = ['\n'] then (if g.others = [] then [' '] else g.others)
    else g.first ++ g.others
  else g.blanks

/-- Reads blanks and breaks; `none` if a tab stands left of `indent` on a further line. `fuel`
bounds the number of characters. -/
def gap? (indent : Int) : Nat → Gap → Cursor → Option (Gap × Cursor)
  | 0, g, c => some (g, c)
  | fuel + 1, g, c =>
    match c.peek with
    | none => some (g, c)
    | some x =>
      if isBlank x then
        if g.broken then
          if x = '\t' ∧ c.column < indent then none else gap? indent fuel g c.advance
        else gap? indent fuel { g with blanks := g.blanks ++ [x] } c.advance
      else if isBreak x then
        let (content, c) := c.takeBreak
        if g.broken then gap? indent fuel { g with others := g.others ++ content } c
        else gap? indent fuel { g with blanks := [], first := content, broken := true } c
      else some (g, c)

/-- The characters that end a plain scalar inside brackets. -/
def isFlowIndicator (c : Char) : Bool :=
  c == ',' || c == '[' || c == ']' || c == '\x7b' || c == '\x7d'

/-- How many characters the word of a plain scalar has; `none` if a colon stands before an indicator
inside brackets. -/
def plainWord? (inFlow : Bool) : List Char → Option Nat
  | [] => some 0
  | x :: rest =>
    let next := rest.head?
    if isBlank x || isBreak x then some 0
    else if inFlow && x == ':' && next.any (fun y => y == '?' || isFlowIndicator y) then none
    else if x == ':' && next.all (fun y => isBlank y || isBreak y) then some 0
    else if inFlow && isFlowIndicator x then some 0
    else (plainWord? inFlow rest).map (· + 1)

/-- Reads the words of a plain scalar; `pending` is the gap before the next word. Answers whether
the last gap had a line break, too. -/
def plainWords? (inFlow : Bool) (indent : Int) :
    Nat → Gap → List Char → Cursor → Option (List Char × Bool × Cursor)
  | 0, pending, text, c => some (text, pending.broken, c)
  | fuel + 1, pending, text, c =>
    if c.seesMarker '-' || c.seesMarker '.' || c.sees '#' then some (text, pending.broken, c)
    else do
      let n ← plainWord? inFlow c.rest
      let word := c.rest.take n
      let (text, pending) := if n = 0 then (text, pending) else (text ++ pending.fold ++ word, {})
      let c := c.advance n
      if c.test fun x => isBlank x || isBreak x then
        let (pending, c) ← gap? indent c.rest.length pending c
        if !inFlow && c.column < indent then some (text, pending.broken, c)
        else plainWords? inFlow indent fuel pending text c
      else some (text, pending.broken, c)

/-- A plain scalar; answers its text and whether line breaks follow it. -/
def plainScalar? (inFlow : Bool) (indent : Int) (c : Cursor) :
    Option (List Char × Bool × Cursor) :=
  plainWords? inFlow (indent + 1) (c.rest.length + 1) {} [] c

/-- The character that an escape with one letter stands for. -/
def escapeLetter? : Char → Option Char
  | '0' => some '\x00'
  | 'a' => some '\x07'
  | 'b' => some '\x08'
  | 't' => some '\t'
  | '\t' => some '\t'
  | 'n' => some '\n'
  | 'v' => some '\x0b'
  | 'f' => some '\x0c'
  | 'r' => some '\r'
  | 'e' => some '\x1b'
  | ' ' => some ' '
  | '"' => some '"'
  | '/' => some '/'
  | '\\' => some '\\'
  | 'N' => some '\x85'
  | '_' => some '\xa0'
  | 'L' => some '\u2028'
  | 'P' => some '\u2029'
  | _ => none

/-- The number of hexadecimal digits after an escape letter that announces a code point. -/
def codeLength? : Char → Option Nat
  | 'x' => some 2
  | 'u' => some 4
  | 'U' => some 8
  | _ => none

/-- The character of an escape; the cursor is at the backslash. -/
def escape? (c : Cursor) : Option (Char × Cursor) := do
  let letter ← c.peek 1
  let c := c.advance 2
  match escapeLetter? letter with
  | some x => return (x, c)
  | none =>
    let n ← codeLength? letter
    let digits := c.rest.take n
    guard (digits.length = n)
    let value ← hexValue? digits
    guard (value.isValidChar)
    return (Char.ofNat value, c.advance n)

/-- Reads a quoted word. Answers its characters, reversed, whether an escaped line break ended it,
and the cursor. -/
def quotedWord? (single : Bool) :
    Nat → List Char → Cursor → Option (List Char × Bool × Cursor)
  | 0, word, c => some (word, false, c)
  | fuel + 1, word, c =>
    if c.atGap then some (word, false, c)
    else if single && c.sees '\'' && c.sees '\'' 1 then
      quotedWord? single fuel ('\'' :: word) (c.advance 2)
    else if c.sees (if single then '\'' else '"') then some (word, false, c)
    else if !single && c.sees '\\' then
      if c.test isBreak 1 then some (word, true, c.advance.skipBreak)
      else do
        let (x, c) ← escape? c
        quotedWord? single fuel (x :: word) c
    else do quotedWord? single fuel ((← c.peek) :: word) c.advance

/-- Reads the words of a quoted scalar up to the closing quote. -/
def quotedWords? (single : Bool) : Nat → List Char → Cursor → Option (List Char × Cursor)
  | 0, _, _ => none
  | fuel + 1, text, c => do
    guard !(c.seesMarker '-' || c.seesMarker '.' || c.atEnd)
    let (word, escaped, c) ← quotedWord? single (c.rest.length + 1) [] c
    let text := text ++ word.reverse
    if c.sees (if single then '\'' else '"') then return (text, c.advance)
    let (g, c) ← gap? 0 c.rest.length { broken := escaped } c
    quotedWords? single fuel (text ++ g.fold) c

def quotedScalar? (single : Bool) (c : Cursor) : Option (List Char × Cursor) :=
  quotedWords? single (c.rest.length + 1) [] c.advance

/-- How a block scalar treats the breaks at its end. -/
inductive Chomping where
  | strip
  | clip
  | keep
deriving DecidableEq

/-- The sign of a chomping indicator. -/
def chomping? (c : Cursor) : Option Chomping :=
  if c.sees '+' then some .keep else if c.sees '-' then some .strip else none

/-- An indentation indicator: a digit other than zero; `none` stands for a wrong one. -/
def indentation? (c : Cursor) : Option (Nat × Cursor) :=
  match c.peek with
  | some x =>
    if x = '0' then none
    else if x.isDigit then some (x.toNat - '0'.toNat, c.advance)
    else some (0, c)
  | none => some (0, c)

/-- The indicators after the first character of a block scalar, in either order; zero stands for an
indentation that is not indicated. -/
def blockHeader? (c : Cursor) : Option (Chomping × Nat × Cursor) :=
  match chomping? c with
  | some chomping => do
    let (indentation, c) ← indentation? c.advance
    return (chomping, indentation, c)
  | none => do
    let (indentation, c) ← indentation? c
    match if indentation = 0 then none else chomping? c with
    | some chomping => return (chomping, indentation, c.advance)
    | none => return (.clip, indentation, c)

/-- Reads indentation and empty lines before a line of a block scalar. `indent` is zero while it is
not known yet, and `widest` is the greatest column reached. Answers the breaks, the greatest column
and the cursor. -/
def blockGap? (indent : Nat) :
    Nat → Nat → List Char → Cursor → Option (List Char × Nat × Cursor)
  | 0, widest, breaks, c => some (breaks, widest, c)
  | fuel + 1, widest, breaks, c =>
    let spaces := (c.rest.takeWhile (· == ' ')).length
    let c := c.advance (if indent = 0 then spaces else min spaces (indent - c.column))
    let widest := max widest c.column
    if (indent = 0 ∨ c.column < indent) ∧ c.sees '\t' then none
    else if c.test isBreak then
      let (content, c) := c.takeBreak
      blockGap? indent fuel widest (breaks ++ content) c
    else some (breaks, widest, c)

/-- Reads the lines of a block scalar. `lead` is the break after the line before, `breaks` are the
empty lines after that, and `blankBefore` is whether that line starts with a blank. -/
def blockLines? (literal : Bool) (indent : Nat) :
    Nat → List Char → List Char → List Char → Bool → Cursor →
      Option (List Char × List Char × List Char × Cursor)
  | 0, text, lead, breaks, _, c => some (text, lead, breaks, c)
  | fuel + 1, text, lead, breaks, blankBefore, c =>
    if c.column = indent ∧ !c.atEnd then do
      let blankHere := c.test isBlank
      let folds := !literal && lead == ['\n'] && !blankBefore && !blankHere
      let join := if folds then (if breaks = [] then [' '] else []) else lead
      let (line, c) := c.takeWhile fun x => !isBreak x
      let (lead, c) := c.takeBreak
      let text := text ++ join ++ breaks ++ line
      let (breaks, _, c) ← blockGap? indent (c.rest.length + 1) 0 [] c
      blockLines? literal indent fuel text lead breaks blankHere c
    else some (text, lead, breaks, c)

/-- A block scalar inside a block of the given indentation. -/
def blockScalar? (literal : Bool) (parent : Int) (c : Cursor) : Option (List Char × Cursor) := do
  let (chomping, indicated, c) ← blockHeader? c.advance
  let c ← c.skipLineEnd?
  let given := if indicated = 0 then 0 else parent.toNat + indicated
  let (breaks, widest, c) ← blockGap? given (c.rest.length + 1) 0 [] c
  let indent := if given = 0 then max widest (max (parent + 1).toNat 1) else given
  let (text, lead, breaks, c) ←
    blockLines? literal indent (c.rest.length + 1) [] [] breaks false c
  let tail := match chomping with
    | .strip => []
    | .clip => lead
    | .keep => lead ++ breaks
  return (text ++ tail, c)

end SeededArt.Yaml
