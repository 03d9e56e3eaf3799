import SeededArt.Decimal.Layout
import SeededArt.Text.Quoted
/-!
# Faults of documents

Why a document cannot be read as what it should be. A text that is not well formed has no further
explanation; every other fault says what was found, most also what was expected, and may name the
place.
-/

namespace SeededArt.Document

open Decimal

/-- What a document holds in the wrong place. -/
inductive Found where
  | null
  | boolean (value : Bool)
  | integer (value : Int)
  /-- An integer of more than 64 bits, and whether it is negative. -/
  | wideInteger (value : Int)
  | float (value : Float)
  | string (value : String)
  | sequence
  | mapping

/-- How a document format words what it holds. -/
structure Wording where
  /-- The word for a value that is not there. -/
  null : String
  /-- The notation of a number with a fraction. -/
  float : Layout

def Found.text (w : Wording) : Found → String
  | null => w.null
  | boolean value => "boolean `" ++ (if value then "true" else "false") ++ "`"
  | integer value => "integer `" ++ toString value ++ "`"
  | wideInteger value =>
    "integer `" ++ toString value ++ (if value < 0 then "` as i128" else "` as u128")
  | float value => "floating point `" ++ w.float.float value ++ "`"
  | string value => "string " ++ Text.quoted value
  | sequence => "sequence"
  | mapping => "map"

/-- Why a document cannot be read. -/
inductive Fault where
  /-- The text is not well formed, or refers to itself without end. -/
  | illFormed
  | unknownField (name : String) (known : List String)
  | missingField (name : String)
  | duplicateField (name : String)
  | wrongType (found : Found) (expected : String)
  | wrongValue (found : Found) (expected : String)
  /-- A mapping has a key twice; only a key that is a scalar without a tag is named. -/
  | duplicateKey (key : Option Found)
  /-- The document is neither one definition nor a list of them. -/
  | noVariant
  /-- A fault at a place inside the document. -/
  | within (path : String) (fault : Fault)

/-- A list of names as alternatives. -/
def oneOf (names : List String) : String :=
  let quote (name : String) : String := "`" ++ name ++ "`"
  match names with
  | [] => "there are no fields"
  | [only] => "expected " ++ quote only
  | [first, second] => "expected " ++ quote first ++ " or " ++ quote second
  | _ => "expected one of " ++ ", ".intercalate (names.map quote)

/-- The notation of a number with a fraction that is a key. -/
def keyLayout : Layout :=
  { positional := some (-5, 16), wholePoint := true, tie := .even }

/-- A number with a fraction that is a key. -/
def keyFloat (value : Float) : String :=
  if value.isNaN then ".nan"
  else if value.isInf then (if value < 0 then "-.inf" else ".inf")
  else keyLayout.float value

/-- Which key a mapping has twice. -/
def duplicateKeyText : Option Found → String
  | some .null => "with null key"
  | some (.boolean value) => "with key `" ++ (if value then "true" else "false") ++ "`"
  | some (.integer value) | some (.wideInteger value) => "with key " ++ toString value
  | some (.float value) => "with key " ++ keyFloat value
  | some (.string value) => "with key " ++ Text.quoted value
  | some .sequence | some .mapping | none => "in YAML map"

/-- The explanation of a fault, if it has one. -/
def Fault.detail? (w : Wording) : Fault → Option String
  | illFormed => none
  | unknownField name known => some ("unknown field `" ++ name ++ "`, " ++ oneOf known)
  | missingField name => some ("missing field `" ++ name ++ "`")
  | duplicateField name => some ("duplicate field `" ++ name ++ "`")
  | wrongType found expected =>
    some ("invalid type: " ++ found.text w ++ ", expected " ++ expected)
  | wrongValue found expected =>
    some ("invalid value: " ++ found.text w ++ ", expected " ++ expected)
  | duplicateKey key => some ("duplicate entry " ++ duplicateKeyText key)
  | noVariant => some "data did not match any variant of untagged enum OneOrMany"
  | within path fault => (fault.detail? w).map fun detail => path ++ ": " ++ detail

/-- Reads a field that must not be known yet. -/
def readOnce {β : Type} (name : String) (known : Option β) (read : Except Fault β) :
    Except Fault (Option β) :=
  if known.isSome then .error (.duplicateField name) else read.map some

/-- A message followed by the explanation of a fault, if it has one. -/
def Fault.after (w : Wording) (message : String) (f : Fault) : String :=
  match f.detail? w with
  | some detail => message ++ ": " ++ detail
  | none => message

end SeededArt.Document
