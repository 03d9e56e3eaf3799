import SeededArt.Document.Format
import SeededArt.Json.Value
import SeededArt.Options
import SeededArt.Yaml.Reading
/-!
# Options in documents

Options are read from JSON or YAML in the order of the text, and the first fault decides: a fault
of a field is reported even if the text is not well formed further on. Options that the text leaves
out take their defaults.
-/

namespace SeededArt.Document

open Decimal

/-- The word for options where something else is found. -/
def optionsWord : String := "struct RandomartOptions"

/-- The first number that is too great for a depth. -/
def depthLimit : Nat := raise 2 32

/-- Options of which some are known. -/
structure PartialOptions where
  seed : Option String := none
  grammar : Option String := none
  depth : Option Nat := none
  scale : Option Float32 := none
  debug : Option Bool := none

/-- The options, defaults in place of what is not known. -/
def PartialOptions.complete (p : PartialOptions) : Options :=
  let d : Options := {}
  ⟨p.seed.getD d.seed, p.grammar.getD d.grammar, p.depth.getD d.depth, p.scale.getD d.scale,
    p.debug.getD d.debug⟩

/-- How a document format reads the values of options from its values `ν`. -/
structure FieldReader (ν : Type) where
  string : ν → Except Fault String
  depth : ν → Except Fault Nat
  scale : ν → Except Fault Float32
  boolean : ν → Except Fault Bool

/-- Adds the option of a name. -/
def PartialOptions.set {ν : Type} (r : FieldReader ν) (p : PartialOptions) (name : String)
    (value : ν) : Except Fault PartialOptions := do
  match name with
  | "seed" => return { p with seed := ← readOnce name p.seed (r.string value) }
  | "grammar" => return { p with grammar := ← readOnce name p.grammar (r.string value) }
  | "depth" => return { p with depth := ← readOnce name p.depth (r.depth value) }
  | "scale" => return { p with scale := ← readOnce name p.scale (r.scale value) }
  | "debug" => return { p with debug := ← readOnce name p.debug (r.boolean value) }
  | _ => throw (.unknownField name Options.fieldNames)

/-- A natural number as a depth. -/
def depthOf (n : Nat) : Except Fault Nat :=
  if n < depthLimit then .ok n else .error (.wrongValue (.integer n) "u32")

namespace OfJson

open Json

def wrongType (v : Value) (expected : String) : Fault :=
  match v.found? with
  | some found => .wrongType found expected
  | none => .illFormed

def singleOfInt (n : Int) : Float32 :=
  if n < 0 then -(singleOfNat n.natAbs) else singleOfNat n.natAbs

/-- How JSON values give options. -/
def fields : FieldReader Value where
  string
    | .string text => .ok text
    | v => .error (wrongType v "a string")
  depth
    | .number (.integer n) =>
      if n < 0 then .error (.wrongValue (.integer n) "u32") else depthOf n.toNat
    | v => .error (wrongType v "u32")
  scale
    | .number (.integer n) => .ok (singleOfInt n)
    | .number (.float x) => .ok (singleOfDouble x)
    | v => .error (wrongType v "f32")
  boolean
    | .boolean b => .ok b
    | v => .error (wrongType v "a boolean")

/-- Options of a value: an object, or an array of the options in their order. -/
def options (v : Value) : Except Fault Options := do
  match v with
  | .object members closed =>
    let p ← members.foldlM (fun p (name, value) => PartialOptions.set fields p name value) {}
    if closed then return p.complete else throw .illFormed
  | .array items closed =>
    let named := Options.fieldNames.zip items
    let p ← named.foldlM (fun p (name, value) => PartialOptions.set fields p name value) {}
    if closed ∧ items.length ≤ Options.fieldNames.length then return p.complete
    else throw .illFormed
  | v => throw (wrongType v optionsWord)

def read (text : String) : Except Fault Options := do
  let reading := Json.read text
  let o ← options reading.value
  if reading.complete then return o else throw .illFormed

end OfJson

namespace OfYaml

open Yaml

def wrongType (n : Node) (expected : String) : Fault :=
  match n with
  | .scalar _ tag style text =>
    match resolve tag style text with
    | .ok found => .wrongType found expected
    | .error fault => fault
  | .sequence .. => .wrongType .sequence expected
  | .mapping .. => .wrongType .mapping expected
  | .alias _ | .broken => .illFormed

/-- The text of a scalar from which a number or boolean may be read: a plain one, or a literal one
whose tag asks for it. -/
def typedText? (type : String) : Node → Option String
  | .scalar _ tag style text =>
    if style = .plain ∨ (style = .literal ∧ tag = some (.core type)) then some text else none
  | _ => none

/-- Reads a value from the text of a scalar. -/
def typed {β : Type} (type expected : String) (read? : String → Option β) (n : Node) :
    Except Fault β :=
  match (typedText? type n).bind read? with
  | some value => .ok value
  | none => .error (wrongType n expected)

/-- How YAML nodes give options. A scalar of any form is a string. -/
def fields : FieldReader Node where
  string
    | .scalar _ _ _ text => .ok text
    | n => .error (wrongType n "a string")
  depth n := do
    depthOf (← typed "int" "u32" (fun text => Yaml.unsigned? (raise 2 64) text.toList) n)
  scale n := (typed "float" "f32" float? n).map singleOfDouble
  boolean := typed "bool" "a boolean" boolean?

/-- The node itself, or the node that an alias refers to. -/
def target (slots : List (Nat × Node)) : Node → Node
  | .alias slot => (nodeOf? slots slot).getD .broken
  | n => n

/-- Adds the option of an entry. Faults of the value name the key. -/
def addEntry (slots : List (Nat × Node)) (p : PartialOptions) (entry : Node × Node) :
    Except Fault PartialOptions :=
  match target slots entry.1 with
  | .scalar _ _ _ name =>
    match p.set fields name (target slots entry.2) with
    | .ok p => .ok p
    | .error fault => .error (faultAt (some (keyWord entry.1)) fault)
  | key => .error (wrongType key "field identifier")

/-- Options of a document: a mapping, or nothing. -/
def options (t : Tree) : Except Fault Options := do
  let slots := t.root.anchored
  match t.root with
  | .mapping _ _ entries =>
    let p ← entries.foldlM (addEntry slots) {}
    return p.complete
  | .scalar _ _ .plain "" => return {}
  | n => throw (wrongType n optionsWord)

/-- Options of a text, which must not have a second document. -/
def read (text : String) : Except Fault Options := do
  match documents text with
  | [] => return {}
  | t :: others =>
    let o ← options t
    if t.faulty || !others.isEmpty then throw .illFormed else return o

end OfYaml

def readOptions (format : Format) (text : String) : Except Fault Options :=
  match format with
  | .yaml => OfYaml.read text
  | .json => OfJson.read text

end SeededArt.Document
