/-!
# White space

`isBlank` is the Unicode property White_Space. `trim` removes blanks from both ends of a text and
`words` are its longest runs without a blank. Texts are lists of characters here.
-/

namespace SeededArt.Text

/-- The Unicode property White_Space: ranges of code points, both ends included. -/
def blankRanges : List (Nat × Nat) :=
  [(0x9, 0xD), (0x20, 0x20), (0x85, 0x85), (0xA0, 0xA0), (0x1680, 0x1680), (0x2000, 0x200A),
    (0x2028, 0x2029), (0x202F, 0x202F), (0x205F, 0x205F), (0x3000, 0x3000)]

/-- Whether a code point lies in one of the ranges. -/
def inRanges (ranges : List (Nat × Nat)) (c : Char) : Bool :=
  ranges.any fun (first, last) => first ≤ c.toNat && c.toNat ≤ last

/-- Whether a character is white space. -/
def isBlank (c : Char) : Bool := inRanges blankRanges c

def trimLeft (cs : List Char) : List Char := cs.dropWhile isBlank

def trimRight (cs : List Char) : List Char := (cs.reverse.dropWhile isBlank).reverse

def trim (cs : List Char) : List Char := trimRight (trimLeft cs)

theorem length_trim_le (cs : List Char) : (trim cs).length ≤ cs.length := by
  have left : (trimLeft cs).length ≤ cs.length := (List.dropWhile_sublist _).length_le
  have right : (trim cs).length ≤ (trimLeft cs).reverse.length := by
    simpa [trim, trimRight] using
      ((List.dropWhile_sublist isBlank (l := (trimLeft cs).reverse)).length_le)
  simpa using Nat.le_trans right (by simpa using left)

/-- The words of a text; `word` holds, reversed, what precedes it without a blank between. -/
def wordsFrom (word : List Char) : List Char → List (List Char)
  | [] => if word = [] then [] else [word.reverse]
  | c :: rest =>
    if isBlank c then
      if word = [] then wordsFrom [] rest else word.reverse :: wordsFrom [] rest
    else wordsFrom (c :: word) rest

/-- The longest runs without a blank. -/
def words (cs : List Char) : List (List Char) := wordsFrom [] cs

/-- The lines of a text, each without its line feed and without one carriage return before it.
A line feed at the very end starts no further line. -/
def linesFrom (line : List Char) : List Char → List (List Char)
  | [] => if line = [] then [] else [line.reverse]
  | '\n' :: rest =>
    let ended := match line with
      | '\r' :: before => before
      | _ => line
    ended.reverse :: linesFrom [] rest
  | c :: rest => linesFrom (c :: line) rest

def lines (cs : List Char) : List (List Char) := linesFrom [] cs

end SeededArt.Text
