import SeededArt.Decimal.Numeral
import SeededArt.Text.Hexadecimal
import SeededArt.Yaml.Cursor
import SeededArt.Yaml.Token
/-!
# Directives, anchors and tags

Readers of single YAML tokens. Each starts at the first character of its token and answers what
the token says with the cursor after it, or `none` if the text is not well formed there.
-/

namespace SeededArt.Yaml

open Cursor
open Text (hexValue?)

/-- A number of a version: one to nine digits. -/
def versionNumber? (c : Cursor) : Option (Nat × Cursor) :=
  let (digits, c) := c.takeWhile Char.isDigit
  if digits = [] ∨ 9 < digits.length then none
  else some (Decimal.digitsValue digits, c)

/-- An octet written as a percent sign and two hexadecimal digits. -/
def escapedOctet? (c : Cursor) : Option (UInt8 × Cursor) := do
  guard (c.sees '%')
  let octet ← hexValue? [← c.peek 1, ← c.peek 2]
  return (octet.toUInt8, c.advance 3)

/-- How many octets follow the first one of a character. -/
def trailingCount? (octet : UInt8) : Option Nat :=
  if octet < 0x80 then some 0
  else if octet / 32 = 6 then some 1
  else if octet / 16 = 14 then some 2
  else if octet / 8 = 30 then some 3
  else none

/-- So many octets that follow the first one of a character, each starting with the bits 1 and 0. -/
def trailingOctets? : Nat → Cursor → Option (List UInt8 × Cursor)
  | 0, c => some ([], c)
  | n + 1, c => do
    let (octet, c) ← escapedOctet? c
    guard (octet / 64 = 2)
    let (octets, c) ← trailingOctets? n c
    return (octet :: octets, c)

/-- The octets of one escaped character. They follow the pattern of UTF-8, but need not stand for a
code point. -/
def escapedOctets? (c : Cursor) : Option (List UInt8 × Cursor) := do
  let (octet, c) ← escapedOctet? c
  let (octets, c) ← trailingOctets? (← trailingCount? octet) c
  return (octet :: octets, c)

/-- Whether a character can be part of a tag. Commas and brackets can only between `<` and `>` and
in the expansion of a handle. -/
def isTagChar (everywhere : Bool) (c : Char) : Bool :=
  isWordChar c || ";/?:@&=+$.%!~*'()".toList.contains c || (everywhere && ",[]".toList.contains c)

/-- The octets that the characters of a tag spell; `fuel` bounds the number of characters. -/
def tagOctets? (everywhere : Bool) : Nat → Cursor → Option (List UInt8 × Cursor)
  | 0, c => some ([], c)
  | fuel + 1, c =>
    if c.test (isTagChar everywhere) then do
      let (octets, c) ←
        if c.sees '%' then escapedOctets? c
        else (c.peek).map fun x => ([x.toNat.toUInt8], c.advance)
      let (others, c) ← tagOctets? everywhere fuel c
      return (octets ++ others, c)
    else some ([], c)

/-- The octets of a tag up to the first character that cannot be part of it. -/
def tagText? (everywhere : Bool) (c : Cursor) : Option (List UInt8 × Cursor) :=
  tagOctets? everywhere c.rest.length c

/-- An exclamation mark, the word characters after it, and one more exclamation mark if there is
one. -/
def tagHandle? (c : Cursor) : Option (List Char × Cursor) := do
  guard (c.sees '!')
  let (word, c) := c.advance.takeWhile isWordChar
  if c.sees '!' then return ('!' :: word ++ ['!'], c.advance)
  else return ('!' :: word, c)

/-- The rest of a directive, after its name. -/
def directiveValue? (name : List Char) (c : Cursor) : Option (Token × Cursor) := do
  let c := c.skipWhile isBlank
  if name = "YAML".toList then
    let (major, c) ← versionNumber? c
    guard (c.sees '.')
    let (minor, c) ← versionNumber? c.advance
    return (.version major minor, c)
  else if name = "TAG".toList then
    let (handle, c) ← tagHandle? c
    guard (handle = ['!'] || handle.getLast? == some '!')
    guard (c.test isBlank)
    let (expansion, c) ← tagText? true (c.skipWhile isBlank)
    guard (expansion ≠ [] ∧ c.atGap)
    return (.tagHandle (String.ofList handle) (.ofOctets expansion), c)
  else none

/-- A directive with the rest of its line. -/
def directive? (c : Cursor) : Option (Token × Cursor) := do
  let (name, c) := c.advance.takeWhile isWordChar
  guard (name ≠ [] ∧ c.atGap)
  let (token, c) ← directiveValue? name c
  return (token, ← c.skipLineEnd?)

/-- The name of an anchor or alias, after its indicator. -/
def anchorName? (c : Cursor) : Option (String × Cursor) := do
  let (name, c) := c.advance.takeWhile isWordChar
  guard (name ≠ [] ∧ (c.atGap || c.test fun x => "?:,]\x7d%@`".toList.contains x))
  return (String.ofList name, c)

/-- A tag as a handle and a suffix. A tag between `<` and `>` has the empty handle, and so has the
lone exclamation mark. -/
def tag? (inFlow : Bool) (c : Cursor) : Option (Token × Cursor) := do
  let (handle, suffix, c) ←
    if c.sees '<' 1 then do
      let (octets, c) ← tagText? true (c.advance 2)
      guard (octets ≠ [] ∧ c.sees '>')
      pure ("", Tag.ofOctets octets, c.advance)
    else do
      let (handle, c) ← tagHandle? c
      let (octets, c) ← tagText? false c
      if 1 < handle.length ∧ handle.getLast? = some '!' then
        guard (octets ≠ [])
        pure (String.ofList handle, Tag.ofOctets octets, c)
      else
        let suffix := Tag.ofOctets (Text.bytes (String.ofList (handle.drop 1)) ++ octets)
        pure (if suffix = [] then ("", Tag.lone, c) else ("!", suffix, c))
  guard (c.atGap || (inFlow && c.sees ','))
  return (.tag handle suffix, c)

end SeededArt.Yaml
