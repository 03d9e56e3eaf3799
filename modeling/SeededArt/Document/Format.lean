/-!
# Document formats

The format of a document file follows from the extension of its path.
-/

namespace SeededArt.Document

/-- The formats of documents. -/
inductive Format where
  | yaml
  | json
deriving DecidableEq, Repr

def Format.text : Format → String
  | yaml => "yaml"
  | json => "json"

/-- The parts of a path between its slashes, with `part` reversed before the first of them. -/
def pathPartsFrom (part : List Char) : List Char → List (List Char)
  | [] => [part.reverse]
  | '/' :: rest => part.reverse :: pathPartsFrom [] rest
  | c :: rest => pathPartsFrom (c :: part) rest

/-- The file name of a path: its last part. Empty parts, and parts that name the same directory
again, do not count; the parent directory is no file. -/
def fileName? (path : List Char) : Option (List Char) :=
  let parts := (pathPartsFrom [] path).filter fun part => part ≠ [] ∧ part ≠ ['.']
  parts.getLast?.filter (· ≠ ['.', '.'])

/-- The extension of a file name: what follows its last dot, unless nothing precedes that dot. -/
def extension? (name : List Char) : Option (List Char) :=
  let reversed := name.reverse
  match reversed.dropWhile (· != '.') with
  | _ :: _ :: _ => some (reversed.takeWhile (· != '.')).reverse
  | _ => none

/-- The format of a path, if its extension is one of a format. -/
def Format.ofPath? (path : String) : Option Format :=
  match ((fileName? path.toList).bind extension?).map String.ofList with
  | some "yaml" | some "yml" => some .yaml
  | some "json" => some .json
  | _ => none

end SeededArt.Document
