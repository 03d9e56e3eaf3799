import SeededArt.Document.Datum
import SeededArt.Yaml.Core
import SeededArt.Yaml.Node
/-!
# YAML documents as untyped values

`Tree.datum` reads a document as an untyped value. An alias reads its node again; collections
may be nested, and aliases followed, only up to a limit, which ends nodes that refer to themselves.
Faults name the place of the value inside the document.

A value keeps the tag of its own that its node has. The keys of a mapping with such a tag lose all
their tags, unless an alias leads to them.
-/

namespace SeededArt.Yaml

open Document

/-- How deep collections may be nested. -/
def nestingLimit : Nat := 128

/-- The node of a slot: the last one that has it. -/
def nodeOf? (slots : List (Nat × Node)) (slot : Nat) : Option Node :=
  (slots.reverse.find? (·.1 == slot)).map (·.2)

/-- The place of an item of a sequence. -/
def itemPath (path : Option String) (index : Nat) : String :=
  path.getD "." ++ "[" ++ toString index ++ "]"

/-- The place of an entry of a mapping. -/
def entryPath (path : Option String) (key : String) : String :=
  match path with
  | some path => path ++ "." ++ key
  | none => key

/-- The word for the place of an entry with this key; only a scalar that is written out has its
text. -/
def keyWord : Node → String
  | .scalar _ _ _ text => text
  | _ => "?"

/-- A fault at a place. A lone dot names the whole document and is left out. -/
def faultAt (path : Option String) (fault : Fault) : Fault :=
  match path, fault with
  | some ".", _ => fault
  | some path, .wrongType .. | some path, .wrongValue .. | some path, .duplicateKey _ =>
    .within path fault
  | _, _ => fault

/-- The untyped value of what a scalar says. -/
def datumOfFound : Found → Except Fault Datum
  | .null => .ok .null
  | .boolean value => .ok (.boolean value)
  | .integer value => .ok (.integer value)
  | .float value => .ok (.float value)
  | .string value => .ok (.string value)
  | found => .error (.wrongType found "any YAML value")

/-- A step of reading values; the state counts the aliases that may still be followed. -/
abbrev ReadStep := StateT Nat (Except Fault)

/-- The node itself, or the node that an alias refers to. -/
def target (slots : List (Nat × Node)) : Node → ReadStep Node
  | .alias slot => do
    match ← get, nodeOf? slots slot with
    | left + 1, some n =>
      set left
      return n
    | _, _ => throw .illFormed
  | n => return n

/-- A value with a tag of its own, if there is one. -/
def tagged (own : Option String) (d : Datum) : Datum :=
  match own with
  | some own => .tagged own d
  | none => d

/-- Reads a scalar with the tag that counts, if one does. -/
def scalarDatum (path : Option String) (tag : Option Tag) (style : Style) (text : String) :
    Except Fault Datum :=
  match (resolve tag style text).bind datumOfFound with
  | .ok d => .ok d
  | .error fault => .error (faultAt path fault)

/-- What is named of a key that occurs twice. -/
def keyFound? : Datum → Option Found
  | .tagged .. => none
  | d => some d.found

mutual

/-- Reads a node; `depth` is how deep collections may still be nested, and `bare` is whether the
node has lost its tag. -/
def readNode (slots : List (Nat × Node)) (depth : Nat) (path : Option String) (bare : Bool)
    (n : Node) : ReadStep Datum := do
  let bare := bare && !n.isAlias
  match ← target slots n with
  | .broken | .alias _ => throw .illFormed
  | .scalar _ tag style text =>
    let tag := if bare then none else tag
    let own := tag.bind Tag.own?
    return tagged own (← scalarDatum path (if own.isSome then none else tag) style text)
  | .sequence _ tag items =>
    let own := if bare then none else tag.bind Tag.own?
    match depth with
    | depth + 1 => return tagged own (.sequence (← readItems slots depth path 0 items))
    | 0 => throw .illFormed
  | .mapping _ tag entries =>
    let own := if bare then none else tag.bind Tag.own?
    match depth with
    | depth + 1 =>
      return tagged own (.mapping (← readEntries slots depth path (bare || own.isSome) [] entries))
    | 0 => throw .illFormed
termination_by (depth, sizeOf n)

/-- Reads the items of a sequence from the given index on. -/
def readItems (slots : List (Nat × Node)) (depth : Nat) (path : Option String) (index : Nat)
    (items : List Node) : ReadStep (List Datum) :=
  match items with
  | [] => return []
  | n :: rest => do
    let d ← readNode slots depth (some (itemPath path index)) false n
    return d :: (← readItems slots depth path (index + 1) rest)
termination_by (depth, sizeOf items)

/-- Reads the entries of a mapping after those that are done. A key may not occur twice; `bare` is
whether the keys lose their tags. -/
def readEntries (slots : List (Nat × Node)) (depth : Nat) (path : Option String) (bare : Bool)
    (done : List (Datum × Datum)) (entries : List (Node × Node)) :
    ReadStep (List (Datum × Datum)) :=
  match entries with
  | [] => return done.reverse
  | (k, v) :: rest => do
    let key ← readNode slots depth path bare k
    if done.any fun (other, _) => other.same key then
      throw (faultAt path (.duplicateKey (keyFound? key)))
    let value ← readNode slots depth (some (entryPath path (keyWord k))) false v
    readEntries slots depth path bare ((key, value) :: done) rest
termination_by (depth, sizeOf entries)

end

def Tree.datum (d : Tree) : Except Fault Datum := do
  let (value, _) ← (readNode d.root.anchored nestingLimit none false d.root).run (100 * d.size)
  if d.faulty then throw .illFormed
  return value

end SeededArt.Yaml
