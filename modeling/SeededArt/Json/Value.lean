import SeededArt.Document.Datum
import SeededArt.Json.Number
import SeededArt.Text.Hexadecimal
/-!
# JSON texts

A text is read as far as it is well formed: a collection that does not end as it should is marked
as open, and what should be a value but is none is `Value.broken`. So all that precedes a fault can
still be read in order. `Value.datum?` is the untyped value of a text without a fault.
-/

namespace SeededArt.Json

open Document

/-- A value as far as it is well formed. -/
inductive Value where
  | null
  | boolean (value : Bool)
  | number (value : Number)
  | string (value : String)
  | array (items : List Value) (closed : Bool)
  | object (members : List (String × Value)) (closed : Bool)
  | broken

/-- How deep collections may be nested. -/
def nestingLimit : Nat := 127

/-- Whether a character may stand between tokens. -/
def isGap (c : Char) : Bool := c == ' ' || c == '\n' || c == '\t' || c == '\r'

/-- Passes over characters between tokens. -/
def skipGap (cs : List Char) : List Char := cs.dropWhile isGap

/-- The UTF-16 unit of four hexadecimal digits. -/
def unit? : List Char → Option (Nat × List Char)
  | a :: b :: c :: d :: rest => do
    return (← Text.hexValue? [a, b, c, d], rest)
  | _ => none

/-- The character of an escape with hexadecimal digits: one unit, or a surrogate pair. -/
def escapedUnits? (cs : List Char) : Option (Char × List Char) := do
  let (high, cs) ← unit? cs
  if 0xDC00 ≤ high ∧ high ≤ 0xDFFF then none
  else if 0xD800 ≤ high ∧ high ≤ 0xDBFF then
    match cs with
    | '\\' :: 'u' :: cs =>
      let (low, cs) ← unit? cs
      guard (0xDC00 ≤ low ∧ low ≤ 0xDFFF)
      return (Char.ofNat (0x10000 + (high - 0xD800) * 0x400 + (low - 0xDC00)), cs)
    | _ => none
  else return (Char.ofNat high, cs)

/-- The character of an escape, after the backslash. -/
def escape? : List Char → Option (Char × List Char)
  | '"' :: cs => some ('"', cs)
  | '\\' :: cs => some ('\\', cs)
  | '/' :: cs => some ('/', cs)
  | 'b' :: cs => some ('\x08', cs)
  | 'f' :: cs => some ('\x0c', cs)
  | 'n' :: cs => some ('\n', cs)
  | 'r' :: cs => some ('\r', cs)
  | 't' :: cs => some ('\t', cs)
  | 'u' :: cs => escapedUnits? cs
  | _ => none

/-- Reads the rest of a string, after the opening quote; `fuel` bounds the number of characters. -/
def stringBody? : Nat → List Char → List Char → Option (String × List Char)
  | 0, _, _ => none
  | fuel + 1, done, cs =>
    match cs with
    | [] => none
    | '"' :: rest => some (String.ofList done.reverse, rest)
    | '\\' :: rest => do
      let (c, rest) ← escape? rest
      stringBody? fuel (c :: done) rest
    | c :: rest => if c.toNat < 0x20 then none else stringBody? fuel (c :: done) rest

def string? (cs : List Char) : Option (String × List Char) := stringBody? (cs.length + 1) [] cs

mutual

/-- Reads a value. Answers what follows it too, unless the text is not well formed by then. `depth`
is how deep collections may still be nested, and `fuel` bounds the number of steps. -/
def readValue : (fuel depth : Nat) → List Char → Value × Option (List Char)
  | 0, _, _ => (.broken, none)
  | fuel + 1, depth, cs =>
    match skipGap cs with
    | 'n' :: 'u' :: 'l' :: 'l' :: rest => (.null, some rest)
    | 't' :: 'r' :: 'u' :: 'e' :: rest => (.boolean true, some rest)
    | 'f' :: 'a' :: 'l' :: 's' :: 'e' :: rest => (.boolean false, some rest)
    | '"' :: rest =>
      match string? rest with
      | some (text, rest) => (.string text, some rest)
      | none => (.broken, none)
    | '[' :: rest =>
      match depth with
      | 0 => (.broken, none)
      | depth + 1 =>
        let (items, rest) := readItems fuel depth true [] rest
        (.array items rest.isSome, rest)
    | c :: rest =>
      if c = '\x7b' then
        match depth with
        | 0 => (.broken, none)
        | depth + 1 =>
          let (members, rest) := readMembers fuel depth true [] rest
          (.object members rest.isSome, rest)
      else
        match number? (c :: rest) with
        | some (value, rest) => (.number value, some rest)
        | none => (.broken, none)
    | [] => (.broken, none)

/-- Reads the items of an array after those that are done. -/
def readItems : (fuel depth : Nat) → (first : Bool) → List Value → List Char →
    List Value × Option (List Char)
  | 0, _, _, done, _ => (done.reverse, none)
  | fuel + 1, depth, first, done, cs =>
    let item (cs : List Char) : List Value × Option (List Char) :=
      match readValue fuel depth cs with
      | (value, some rest) => readItems fuel depth false (value :: done) rest
      | (value, none) => ((value :: done).reverse, none)
    match skipGap cs with
    | ']' :: rest => (done.reverse, some rest)
    | ',' :: rest => if first then (done.reverse, none) else item rest
    | cs => if first then item cs else (done.reverse, none)

/-- Reads the members of an object after those that are done. -/
def readMembers : (fuel depth : Nat) → (first : Bool) → List (String × Value) → List Char →
    List (String × Value) × Option (List Char)
  | 0, _, _, done, _ => (done.reverse, none)
  | fuel + 1, depth, first, done, cs =>
    let member (cs : List Char) : List (String × Value) × Option (List Char) :=
      match skipGap cs with
      | '"' :: rest =>
        match string? rest with
        | none => (done.reverse, none)
        | some (name, rest) =>
          match skipGap rest with
          | ':' :: rest =>
            match readValue fuel depth rest with
            | (value, some rest) => readMembers fuel depth false ((name, value) :: done) rest
            | (value, none) => (((name, value) :: done).reverse, none)
          | _ => (((name, .broken) :: done).reverse, none)
      | _ => (done.reverse, none)
    match skipGap cs with
    | [] => (done.reverse, none)
    | c :: rest =>
      if c = '\x7d' then (done.reverse, some rest)
      else if c = ',' then (if first then (done.reverse, none) else member rest)
      else if first then member (c :: rest)
      else (done.reverse, none)

end

/-- A text as far as it is well formed. -/
structure Reading where
  value : Value
  /-- Whether only blanks follow the value. -/
  complete : Bool

def read (text : String) : Reading :=
  let cs := text.toList
  match readValue (cs.length + 1) nestingLimit cs with
  | (value, some rest) => ⟨value, (skipGap rest).isEmpty⟩
  | (value, none) => ⟨value, false⟩

mutual

/-- The untyped value, unless there is a fault in it. -/
def Value.datum? : Value → Option Datum
  | .null => some .null
  | .boolean value => some (.boolean value)
  | .number (.integer value) => some (.integer value)
  | .number (.float value) => some (.float value)
  | .string value => some (.string value)
  | .array items closed => if closed then (datumItems? items).map .sequence else none
  | .object members closed => if closed then (datumMembers? members).map .mapping else none
  | .broken => none

def Value.datumItems? : List Value → Option (List Datum)
  | [] => some []
  | v :: rest => return (← v.datum?) :: (← datumItems? rest)

def Value.datumMembers? : List (String × Value) → Option (List (Datum × Datum))
  | [] => some []
  | (name, v) :: rest => return (.string name, ← v.datum?) :: (← datumMembers? rest)

end

/-- What is found where a value stands; `none` if the text is not well formed there. -/
def Value.found? : Value → Option Found
  | .null => some .null
  | .boolean value => some (.boolean value)
  | .number (.integer value) => some (.integer value)
  | .number (.float value) => some (.float value)
  | .string value => some (.string value)
  | .array .. => some .sequence
  | .object .. => some .mapping
  | .broken => none

end SeededArt.Json
