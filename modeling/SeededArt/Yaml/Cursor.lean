/-!
# Positions in a YAML text

A cursor is what is left of a text together with the size of what is read, the line and the column.
The size is in bytes of UTF-8, the column in characters. Five characters break lines; a carriage
return and the line feed after it are one break.
-/

namespace SeededArt.Yaml

/-- Whether a character breaks the line. -/
def isBreak (c : Char) : Bool :=
  c == '\n' || c == '\r' || c == '\x85' || c == '\u2028' || c == '\u2029'

/-- Whether a character separates words within a line. -/
def isBlank (c : Char) : Bool := c == ' ' || c == '\t'

/-- Whether a character can be part of an anchor or of a tag's handle. -/
def isWordChar (c : Char) : Bool := c.isAlphanum || c == '_' || c == '-'

/-- The size of characters in bytes of UTF-8. -/
def sizeOfChars : List Char → Nat
  | [] => 0
  | c :: rest => c.utf8Size + sizeOfChars rest

/-- What is left of a text, and how far it is read. -/
structure Cursor where
  rest : List Char
  /-- The size of what is read. -/
  index : Nat := 0
  line : Nat := 0
  column : Nat := 0

namespace Cursor

/-- The character so many places ahead. -/
def peek (c : Cursor) (n : Nat := 0) : Option Char := c.rest[n]?

/-- Whether this character is so many places ahead. -/
def sees (c : Cursor) (x : Char) (n : Nat := 0) : Bool := c.peek n == some x

/-- Whether the character so many places ahead has a property. -/
def test (p : Char → Bool) (c : Cursor) (n : Nat := 0) : Bool := (c.peek n).any p

/-- Whether the text ends so many places ahead. -/
def atEnd (c : Cursor) (n : Nat := 0) : Bool := (c.peek n).isNone

/-- Whether the line ends so many places ahead. -/
def atBreak (c : Cursor) (n : Nat := 0) : Bool := (c.peek n).all isBreak

/-- Whether a word ends so many places ahead. -/
def atGap (c : Cursor) (n : Nat := 0) : Bool := (c.peek n).all fun x => isBlank x || isBreak x

/-- Whether a marker of three equal characters that starts or ends a document is ahead. -/
def seesMarker (c : Cursor) (x : Char) : Bool :=
  c.column == 0 && c.sees x 0 && c.sees x 1 && c.sees x 2 && c.atGap 3

/-- Passes over characters that do not break the line. -/
def advance (c : Cursor) (n : Nat := 1) : Cursor :=
  { c with
    rest := c.rest.drop n, index := c.index + sizeOfChars (c.rest.take n), column := c.column + n }

/-- Passes over the longest run of characters with a property, and answers the run. -/
def takeWhile (p : Char → Bool) (c : Cursor) : List Char × Cursor :=
  let run := c.rest.takeWhile p
  (run, c.advance run.length)

def skipWhile (p : Char → Bool) (c : Cursor) : Cursor := (c.takeWhile p).2

/-- The cursor at the start of the next line, `n` characters on. -/
def nextLine (c : Cursor) (n : Nat) : Cursor :=
  { rest := c.rest.drop n, index := c.index + sizeOfChars (c.rest.take n), line := c.line + 1,
    column := 0 }

/-- The cursor at the start of a line: the next one, unless none of this one is read. -/
def freshLine (c : Cursor) : Cursor := if c.column = 0 then c else c.nextLine 0

/-- Passes over a line break and answers its content: a line feed, except that the two separators
of Unicode stand for themselves. -/
def takeBreak (c : Cursor) : List Char × Cursor :=
  match c.rest with
  | '\r' :: '\n' :: _ => (['\n'], c.nextLine 2)
  | x :: _ =>
    if x = '\u2028' ∨ x = '\u2029' then ([x], c.nextLine 1)
    else if isBreak x then (['\n'], c.nextLine 1)
    else ([], c)
  | [] => ([], c)

def skipBreak (c : Cursor) : Cursor := c.takeBreak.2

def skipComment (c : Cursor) : Cursor :=
  if c.sees '#' then c.skipWhile fun x => !isBreak x else c

/-- Passes over blanks, a comment and the line break after them; `none` if anything else is on the
rest of the line. -/
def skipLineEnd? (c : Cursor) : Option Cursor :=
  let c := (c.skipWhile isBlank).skipComment
  if c.atBreak then some c.skipBreak else none

end Cursor

end SeededArt.Yaml
