import SeededArt.Document.Fault
/-!
# Untyped documents

What a document says before it is read as anything in particular. Mappings keep the order of their
entries.
-/

namespace SeededArt.Document

/-- A value of a document. -/
inductive Datum where
  | null
  | boolean (value : Bool)
  | integer (value : Int)
  | float (value : Float)
  | string (value : String)
  | sequence (items : List Datum)
  | mapping (entries : List (Datum × Datum))
  /-- A value with a tag of its own. -/
  | tagged (tag : String) (value : Datum)

namespace Datum

/-- The value without its tags. -/
def untagged : Datum → Datum
  | tagged _ value => value.untagged
  | d => d

/-- Whether the value is not there. -/
def isNull (d : Datum) : Bool :=
  match d.untagged with
  | null => true
  | _ => false

/-- What is found where a value stands. -/
def found (d : Datum) : Found :=
  match d.untagged with
  | null | tagged .. => .null
  | boolean value => .boolean value
  | integer value => .integer value
  | float value => .float value
  | string value => .string value
  | sequence _ => .sequence
  | mapping _ => .mapping

/-- A tag of a value's own without a further exclamation mark, unless that is all of it. -/
def tagName (tag : String) : List Char :=
  match tag.toList with
  | '!' :: c :: rest => c :: rest
  | name => name

mutual

/-- Whether two values are equal. Not-a-number equals itself, the order of entries does not count,
and neither does a further exclamation mark of a tag. -/
def same : Datum → Datum → Bool
  | null, null => true
  | boolean a, boolean b => a == b
  | integer a, integer b => a == b
  | float a, float b => a == b || (a.isNaN && b.isNaN)
  | string a, string b => a == b
  | sequence as, sequence bs => sameItems as bs
  | mapping as, mapping bs => as.length == bs.length && sameEntries as bs
  | tagged s a, tagged t b => tagName s == tagName t && same a b
  | _, _ => false

def sameItems : List Datum → List Datum → Bool
  | [], [] => true
  | a :: as, b :: bs => same a b && sameItems as bs
  | _, _ => false

/-- Whether all entries are among others. -/
def sameEntries : List (Datum × Datum) → List (Datum × Datum) → Bool
  | [], _ => true
  | (k, v) :: rest, others => hasEntry k v others && sameEntries rest others

/-- Whether an entry is among others. -/
def hasEntry (k v : Datum) : List (Datum × Datum) → Bool
  | [] => false
  | (k', v') :: rest => (same k k' && same v v') || hasEntry k v rest

end

end Datum

end SeededArt.Document
