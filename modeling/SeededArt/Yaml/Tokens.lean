import SeededArt.Yaml.Scalar
/-!
# The tokens of a YAML text

A text is read token by token. A token that may turn out to be a key is held back until its colon
is found or can no longer follow: a key without an indicator lies on one line and has at most 1024
bytes. What is recognised as a key gets its token, and if need be the start of a block mapping, in
front of what is held back. The end of the text starts a line of its own, so that nothing is held
back there. `tokens` ends with the end of the stream, or earlier if the text is not well formed;
what is held back then is lost.

Some control characters may not occur in a text. A text is read in portions, and one of them is
found as soon as its portion is needed.
-/

namespace SeededArt.Yaml

/-- The longest distance between the start of a key and its colon. -/
def keyLimit : Nat := 1024

/-- A token that may turn out to be a key. -/
structure KeyCandidate where
  /-- How many brackets are open around it. -/
  level : Nat
  /-- Whether it has to be a key, because it starts a line of a block mapping. -/
  required : Bool
  /-- How many tokens precede it. -/
  position : Nat
  start : Cursor

/-- How far a text is read. -/
structure Lexer where
  at_ : Cursor
  /-- Whether the text ends where the cursor has nothing left; else a portion follows that cannot be
  read. -/
  whole : Bool := true
  /-- The column of the innermost block collection. -/
  indent : Int := -1
  /-- The columns of the block collections around it. -/
  outer : List Int := []
  /-- Whether a key may start here. -/
  keyAllowed : Bool := true
  /-- How many brackets are open. -/
  level : Nat := 0
  /-- The candidates, at most one of each level, the innermost first. -/
  candidates : List KeyCandidate := []
  /-- Tokens that are held back. -/
  held : List Token := []
  /-- How many tokens were given out. -/
  given : Nat := 0

namespace Lexer

/-- Whether the text is read inside brackets. -/
def inFlow (l : Lexer) : Bool := 0 < l.level

/-- How many tokens there are so far. -/
def count (l : Lexer) : Nat := l.given + l.held.length

def push (l : Lexer) (t : Token) : Lexer := { l with held := l.held ++ [t] }

/-- Puts a token where so many precede it. -/
def insertAt (l : Lexer) (position : Nat) (t : Token) : Lexer :=
  let n := position - l.given
  { l with held := l.held.take n ++ t :: l.held.drop n }

/-- Ends the block collections to the right of a column. -/
def unindent (l : Lexer) (column : Int) : Lexer :=
  if l.inFlow then l
  else
    let rec close : List Int → Lexer → Lexer
      | [], l => l
      | previous :: outer, l =>
        if column < l.indent then close outer { l.push .blockEnd with indent := previous, outer }
        else l
    close l.outer l

/-- Starts a block collection where so many tokens precede it, if the column is to the right of the
innermost one. -/
def indentTo (l : Lexer) (column : Nat) (position : Nat) (t : Token) : Lexer :=
  if !l.inFlow && l.indent < column then
    { l.insertAt position t with indent := column, outer := l.indent :: l.outer }
  else l

/-- The candidate inside the innermost bracket. -/
def candidate? (l : Lexer) : Option KeyCandidate :=
  l.candidates.head?.filter fun k => k.level == l.level

/-- Gives up the candidate inside the innermost bracket; `none` if it has to be a key. -/
def dropCandidate? (l : Lexer) : Option Lexer :=
  match l.candidate? with
  | some k => if k.required then none else some { l with candidates := l.candidates.drop 1 }
  | none => some l

/-- Notes that the token that follows may be a key, if one may start here. -/
def noteCandidate? (l : Lexer) : Option Lexer :=
  if l.keyAllowed then do
    let required := !l.inFlow && l.indent == l.at_.column
    let candidate : KeyCandidate := ⟨l.level, required, l.count, l.at_⟩
    let l ← l.dropCandidate?
    return { l with candidates := candidate :: l.candidates }
  else some l

/-- Whether a candidate can no longer be a key. -/
def isStale (l : Lexer) (k : KeyCandidate) : Bool :=
  k.start.line < l.at_.line || k.start.index + keyLimit < l.at_.index

/-- Gives up the candidates that can no longer be keys; `none` if one of them has to be. -/
def dropStale? (l : Lexer) : Option Lexer :=
  if l.candidates.any fun k => l.isStale k && k.required then none
  else some { l with candidates := l.candidates.filter fun k => !l.isStale k }

/-- Passes over blanks, comments and line breaks, and over the mark of byte order that a text may
start with. Tabs count as blanks only where no key may start. -/
def skipGap : Nat → Lexer → Lexer
  | 0, l => l
  | fuel + 1, l =>
    let c := l.at_
    let c := if c.index = 0 ∧ c.sees '\ufeff' then c.advance else c
    let tabs := l.inFlow || !l.keyAllowed
    let c := (c.skipWhile fun x => x == ' ' || (tabs && x == '\t')).skipComment
    if c.test isBreak then
      skipGap fuel { l with at_ := c.skipBreak, keyAllowed := l.keyAllowed || !l.inFlow }
    else { l with at_ := c }

/-- Ends everything that is open in the block context. -/
def endBlocks? (l : Lexer) : Option Lexer := do
  let l ← (l.unindent (-1)).dropCandidate?
  return { l with keyAllowed := false }

/-- A token of so many characters. -/
def fixed (l : Lexer) (n : Nat) (t : Token) : Lexer :=
  { l with at_ := l.at_.advance n }.push t

def openBracket? (l : Lexer) (t : Token) : Option Lexer := do
  let l ← l.noteCandidate?
  return { l with level := l.level + 1, keyAllowed := true }.fixed 1 t

def closeBracket? (l : Lexer) (t : Token) : Option Lexer := do
  let l ← l.dropCandidate?
  return { l with level := l.level - 1, keyAllowed := false }.fixed 1 t

/-- The indicator of an entry of a block sequence. -/
def blockEntry? (l : Lexer) : Option Lexer := do
  guard (l.inFlow || l.keyAllowed)
  let l ← (l.indentTo l.at_.column l.count .blockSequenceStart).dropCandidate?
  return { l with keyAllowed := true }.fixed 1 .blockEntry

def key? (l : Lexer) : Option Lexer := do
  guard (l.inFlow || l.keyAllowed)
  let l ← (l.indentTo l.at_.column l.count .blockMappingStart).dropCandidate?
  return { l with keyAllowed := !l.inFlow }.fixed 1 .key

/-- The indicator of a value. It makes a key of the candidate inside the innermost bracket. -/
def value? (l : Lexer) : Option Lexer :=
  match l.candidate? with
  | some k =>
    let l := l.insertAt k.position .key
    let l := l.indentTo k.start.column k.position .blockMappingStart
    some ({ l with candidates := l.candidates.drop 1, keyAllowed := false }.fixed 1 .value)
  | none => do
    guard (l.inFlow || l.keyAllowed)
    let l := l.indentTo l.at_.column l.count .blockMappingStart
    return { l with keyAllowed := !l.inFlow }.fixed 1 .value

/-- A token that may be a key, read by a reader of its own. -/
def keyLike? (l : Lexer) (read : Cursor → Option (Token × Cursor)) : Option Lexer := do
  let l ← l.noteCandidate?
  let (t, c) ← read l.at_
  return { l with at_ := c, keyAllowed := false }.push t

/-- A plain scalar. A key may start after it if line breaks follow. -/
def plain? (l : Lexer) : Option Lexer := do
  let l ← l.noteCandidate?
  let (text, broken, c) ← plainScalar? l.inFlow l.indent l.at_
  return { l with at_ := c, keyAllowed := broken }.push (.scalar .plain (String.ofList text))

def block? (l : Lexer) (literal : Bool) : Option Lexer := do
  let l ← l.dropCandidate?
  let (text, c) ← blockScalar? literal l.indent l.at_
  let style := if literal then Style.literal else .folded
  return { l with at_ := c, keyAllowed := true }.push (.scalar style (String.ofList text))

def quoted? (l : Lexer) (single : Bool) : Option Lexer :=
  l.keyLike? fun c => do
    let (text, c) ← quotedScalar? single c
    let style := if single then Style.singleQuoted else .doubleQuoted
    return (.scalar style (String.ofList text), c)

/-- The characters that no plain scalar starts with, unless a further rule allows it. -/
def indicators : List Char := "-?:,[]\x7b\x7d#&*!|>'\"%@`".toList

/-- Whether a plain scalar starts here. -/
def startsPlain (l : Lexer) : Bool :=
  let c := l.at_
  (!c.atGap && !c.test indicators.contains) ||
    (c.sees '-' && !c.test isBlank 1) ||
    (!l.inFlow && (c.sees '?' || c.sees ':') && !c.atGap 1)

/-- Reads a token that starts with a given character. -/
def lexAt? (l : Lexer) (x : Char) : Option Lexer :=
  let c := l.at_
  if c.column = 0 ∧ x = '%' then do
    let l ← l.endBlocks?
    let (t, c) ← directive? l.at_
    return { l with at_ := c }.push t
  else if c.seesMarker '-' then l.endBlocks?.map (·.fixed 3 .documentStart)
  else if c.seesMarker '.' then l.endBlocks?.map (·.fixed 3 .documentEnd)
  else if x = '[' then l.openBracket? .flowSequenceStart
  else if x = '\x7b' then l.openBracket? .flowMappingStart
  else if x = ']' then l.closeBracket? .flowSequenceEnd
  else if x = '\x7d' then l.closeBracket? .flowMappingEnd
  else if x = ',' then
    l.dropCandidate?.map fun l => { l with keyAllowed := true }.fixed 1 .flowEntry
  else if x = '-' ∧ c.atGap 1 then l.blockEntry?
  else if x = '?' ∧ (l.inFlow || c.atGap 1) then l.key?
  else if x = ':' ∧ (l.inFlow || c.atGap 1) then l.value?
  else if x = '*' then l.keyLike? fun c => (anchorName? c).map fun (name, c) => (.alias name, c)
  else if x = '&' then l.keyLike? fun c => (anchorName? c).map fun (name, c) => (.anchor name, c)
  else if x = '!' then l.keyLike? (tag? l.inFlow)
  else if x = '|' ∧ !l.inFlow then l.block? true
  else if x = '>' ∧ !l.inFlow then l.block? false
  else if x = '\'' then l.quoted? true
  else if x = '"' then l.quoted? false
  else if l.startsPlain then l.plain?
  else none

/-- The end of the text, which starts a line of its own. -/
def endText? (l : Lexer) : Option Lexer := do
  let l ← { l with at_ := l.at_.freshLine }.endBlocks?
  return l.push .streamEnd

/-- Whether so many characters are left, or else the text ends within them. -/
def reaches (l : Lexer) (n : Nat) : Bool := l.whole || !l.at_.atEnd (n - 1)

/-- Reads one more token, or the end of the text. -/
def fetch? (l : Lexer) : Option Lexer := do
  let l := skipGap (l.at_.rest.length + 1) l
  let l ← l.dropStale?
  let l := l.unindent l.at_.column
  guard (l.reaches 4)
  match l.at_.peek with
  | some x => (l.lexAt? x).filter (·.reaches 1)
  | none => l.endText?

/-- Whether the first token that is held back may turn out to be a key. -/
def headMayBeKey (l : Lexer) : Bool :=
  l.candidates.any fun k => k.position == l.given

/-- Gives out tokens until the stream ends or the text is not well formed. -/
def run : Nat → Lexer → List Token
  | 0, _ => []
  | fuel + 1, l =>
    match l.held with
    | [] => match l.fetch? with
      | some l => run fuel l
      | none => []
    | .streamEnd :: _ => [.streamEnd]
    | t :: held =>
      match l.dropStale? with
      | none => []
      | some l =>
        if l.headMayBeKey then
          match l.fetch? with
          | some l => run fuel l
          | none => []
        else t :: run fuel { l with held, given := l.given + 1 }

end Lexer

/-- Whether a character may occur in a YAML text. -/
def isAllowed (c : Char) : Bool :=
  let n := c.toNat
  n == 9 || n == 0xA || n == 0xD || (0x20 ≤ n && n ≤ 0x7E) || n == 0x85 ||
    (0xA0 ≤ n && n ≤ 0xFFFD) || 0x10000 ≤ n

/-- How many bytes a portion of a text has at most. -/
def portionSize : Nat := 16384

/-- A text cut into portions, each as long as the limit allows: `part` is the portion so far,
reversed, and `size` its size. -/
def portionsFrom (size : Nat) (part : List Char) : List Char → List (List Char)
  | [] => [part.reverse]
  | c :: rest =>
    if portionSize < size + c.utf8Size then part.reverse :: portionsFrom c.utf8Size [c] rest
    else portionsFrom (size + c.utf8Size) (c :: part) rest

/-- The portions of a text before the first with a character that may not occur, and whether these
are all. -/
def readable (text : List Char) : List Char × Bool :=
  let portions := portionsFrom 0 [] text
  let good := portions.takeWhile fun part => part.all isAllowed
  (good.flatten, good.length == portions.length)

/-- The tokens of a text. Without the end of the stream as last token the text is not well formed
after the others. -/
def tokens (text : List Char) : List Token :=
  let (rest, whole) := readable text
  Lexer.run (16 * (rest.length + 4)) { at_ := { rest }, whole }

end SeededArt.Yaml
