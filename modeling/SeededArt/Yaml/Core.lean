import SeededArt.Decimal.Numeral
import SeededArt.Document.Fault
import SeededArt.Yaml.Token
/-!
# What a YAML scalar says

The core schema: a plain scalar without a tag says that there is no value, or is a boolean, an
integer, a float or else a string. Every other scalar is a string unless its tag asks for one of
these.
-/

namespace SeededArt.Yaml

open Decimal Document

/-- The texts that say that there is no value. -/
def isNull (text : String) : Bool := ["null", "Null", "NULL", "~"].contains text

/-- The texts of the booleans. -/
def boolean? (text : String) : Option Bool :=
  if ["true", "True", "TRUE"].contains text then some true
  else if ["false", "False", "FALSE"].contains text then some false
  else none

/-- The value of a digit, up to `z`. -/
def digit? (c : Char) : Option Nat :=
  if c.isDigit then some (c.toNat - '0'.toNat)
  else if c.isAlpha then some (c.toLower.toNat - 'a'.toNat + 10)
  else none

/-- The value of digits to a base; there must be at least one. -/
def digits? (base : Nat) (cs : List Char) : Option Nat :=
  if cs = [] then none
  else
    cs.foldlM (fun n c => do
      let d ← digit? c
      guard (d < base)
      return base * n + d) 0

/-- The bases that have a mark. -/
def baseMarks : List (List Char × Nat) := [(['0', 'x'], 16), (['0', 'o'], 8), (['0', 'b'], 2)]

/-- The value of digits after the mark of their base. -/
def marked? (cs : List Char) : Option Nat :=
  baseMarks.findSome? fun (mark, base) => (mark.isPrefixOf? cs).bind (digits? base)

/-- Whether a text has only digits, more than one and the first of them zero; a sign does not
count. Such a text is a string. -/
def isPaddedDigits (cs : List Char) : Bool :=
  let cs := (splitSign cs).2
  1 < cs.length && cs.head? == some '0' && cs.all Char.isDigit

/-- An integer without a minus sign, below a limit. -/
def unsigned? (limit : Nat) (cs : List Char) : Option Nat :=
  let positive := if cs.head? = some '+' then cs.drop 1 else cs
  let value := (marked? positive).filter (· < limit)
  value.or ((if isPaddedDigits cs then none else digits? 10 positive).filter (· < limit))

/-- The absolute value of an integer with a minus sign, at most a limit. -/
def negative? (limit : Nat) (cs : List Char) : Option Nat :=
  match cs with
  | '-' :: rest =>
    let value := (marked? rest).filter (· ≤ limit)
    value.or ((if isPaddedDigits cs then none else digits? 10 rest).filter (· ≤ limit))
  | _ => none

/-- An integer: of 64 bits if it fits, else of 128. -/
def integer? (text : String) : Option Found :=
  let cs := text.toList
  ((unsigned? (raise 2 64) cs).map fun n => .integer n) <|>
    ((negative? (raise 2 63) cs).map fun n => .integer (-n)) <|>
    ((unsigned? (raise 2 128) cs).map fun n => .wideInteger n) <|>
    ((negative? (raise 2 127) cs).map fun n => .wideInteger (-n))

/-- A float: a finite number, or one of the words for infinity and not-a-number. -/
def float? (text : String) : Option Float :=
  let cs := text.toList
  let positive := if cs.head? = some '+' then cs.drop 1 else cs
  let word := String.ofList positive
  if cs.head? = some '+' ∧ (positive.head? = some '+' ∨ positive.head? = some '-') then none
  else if [".inf", ".Inf", ".INF"].contains word then some (Numeral.infinite false).toFloat
  else if ["-.inf", "-.Inf", "-.INF"].contains text then some (Numeral.infinite true).toFloat
  else if [".nan", ".NaN", ".NAN"].contains text then some (Numeral.notANumber false).toFloat
  else ((Numeral.readChars? positive).map Numeral.toFloat).filter Float.isFinite

/-- What a plain scalar without a tag says. -/
def resolvePlain (text : String) : Found :=
  if text = "" ∨ isNull text then .null
  else
    match boolean? text with
    | some value => .boolean value
    | none =>
      match integer? text with
      | some found => found
      | none =>
        match if isPaddedDigits text.toList then none else float? text with
        | some value => .float value
        | none => .string text

/-- What a scalar says. -/
def resolve (tag : Option Tag) (style : Style) (text : String) : Except Fault Found :=
  let asked (found : Option Found) (expected : String) : Except Fault Found :=
    match found with
    | some found => .ok found
    | none => .error (.wrongValue (.string text) expected)
  match tag with
  | none => .ok (if style = .plain then resolvePlain text else .string text)
  | some tag =>
    if tag = .core "bool" then asked ((boolean? text).map .boolean) "a boolean"
    else if tag = .core "int" then asked (integer? text) "an integer"
    else if tag = .core "float" then asked ((float? text).map .float) "a float"
    else if tag = .core "null" then asked (if isNull text then some .null else none) "null"
    else if tag.isMarked && style == .plain then .ok (resolvePlain text)
    else .ok (.string text)

end SeededArt.Yaml
