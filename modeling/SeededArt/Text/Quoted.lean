import SeededArt.Text.Blank
import SeededArt.Text.Invisible
import SeededArt.Text.Extending
/-!
# Quoted text in messages

`quoted` puts a text between double quotes. A quote and a backslash get a backslash; NUL, tab, line
feed and carriage return have letters; every other character that cannot be seen or that extends
the one before it is written as `\u{...}` with its code point in hexadecimal. The fillers of Hangul
are letters that cannot be seen. The sound marks of halfwidth Katakana extend the letter before
them, but have a width of their own and are written as they are.
-/

namespace SeededArt.Text

/-- Letters without a shape: the fillers of Hangul. -/
def isFiller (c : Char) : Bool :=
  c == '\u115f' || c == '\u1160' || c == '\u3164' || c == '\uffa0'

/-- The sound marks of halfwidth Katakana. -/
def isHalfwidthMark (c : Char) : Bool := c == '\uff9e' || c == '\uff9f'

/-- Whether a character is written as itself. -/
def isPlain (c : Char) : Bool :=
  isHalfwidthMark c ||
    (!isFiller c && !inRanges invisibleRanges c && !inRanges extendingRanges c)

/-- A character between double quotes. -/
def quotedChar (c : Char) : List Char :=
  match c with
  | '"' => ['\\', '"']
  | '\\' => ['\\', '\\']
  | '\x00' => ['\\', '0']
  | '\t' => ['\\', 't']
  | '\n' => ['\\', 'n']
  | '\r' => ['\\', 'r']
  | _ =>
    if isPlain c then [c]
    else ['\\', 'u', '\x7b'] ++ Nat.toDigits 16 c.toNat ++ ['\x7d']

/-- A text between double quotes. -/
def quoted (text : String) : String :=
  String.ofList ('"' :: (text.toList.flatMap quotedChar ++ ['"']))

end SeededArt.Text
