import SeededArt.Document.Format
import SeededArt.Grammar.Definition
import SeededArt.Json.Value
import SeededArt.Yaml.Reading
/-!
# Definitions in documents

A YAML text holds any number of documents, each a definition or nothing; a JSON text holds one
definition or an array of them. A definition is read from an untyped value: fields in the order of
the text, each checked as it is met, and what is missing only at the end.
-/

namespace SeededArt.Document

/-- What a document format accepts besides mappings and sequences. -/
structure Conventions where
  /-- Whether a record may be a sequence of its fields in their order. -/
  recordsAsSequences : Bool
  /-- Whether nothing counts as an empty sequence or mapping. -/
  nullAsEmpty : Bool

def jsonConventions : Conventions := ⟨true, false⟩

def yamlConventions : Conventions := ⟨false, true⟩

def readString (d : Datum) : Except Fault String :=
  match d.untagged with
  | .string text => .ok text
  | _ => .error (.wrongType d.found "a string")

def readFloat (d : Datum) : Except Fault Float :=
  match d.untagged with
  | .float value => .ok value
  | .integer n =>
    let size := Decimal.doubleOfNat n.natAbs
    .ok (if n < 0 then -size else size)
  | _ => .error (.wrongType d.found "f64")

/-- A string, unless there is no value. -/
def readOptional (d : Datum) : Except Fault (Option String) :=
  match d with
  | .null => .ok none
  | _ => (readString d).map some

def readList {β : Type} (c : Conventions) (read : Datum → Except Fault β) (d : Datum) :
    Except Fault (List β) :=
  match d.untagged, c.nullAsEmpty with
  | .sequence items, _ => items.mapM read
  | .null, true => .ok []
  | _, _ => .error (.wrongType d.found "a sequence")

/-- The value of a field that must be there. -/
def needed {β : Type} (name : String) (value : Option β) : Except Fault β :=
  match value with
  | some value => .ok value
  | none => .error (.missingField name)

/-- Reads the fields of a record one by one into `start`; `set` reads one field. -/
def readRecord {ρ : Type} (c : Conventions) (word : String) (names : List String) (start : ρ)
    (set : ρ → String → Datum → Except Fault ρ) (d : Datum) : Except Fault ρ :=
  match d.untagged, c.recordsAsSequences, c.nullAsEmpty with
  | .mapping entries, _, _ =>
    entries.foldlM (fun known (key, value) =>
      match key.untagged with
      | .string name => set known name value
      | _ => .error (.wrongType key.found "field identifier")) start
  | .sequence items, true, _ =>
    if names.length < items.length then .error .illFormed
    else (names.zip items).foldlM (fun known (name, value) => set known name value) start
  | .null, _, true => .ok start
  | _, _, _ => .error (.wrongType d.found word)

/-- An alternative of which some fields are known. -/
structure PartialAlternative where
  name : Option String := none
  arguments : Option (List String) := none
  weight : Option Float := none
  emit : Option (Option String) := none

def alternativeFields : List String := ["name", "args", "weight", "emit"]

def readAlternative (c : Conventions) (d : Datum) : Except Fault (AlternativeDefinition Float) := do
  let set (a : PartialAlternative) (name : String) (value : Datum) :
      Except Fault PartialAlternative := do
    match name with
    | "name" => return { a with name := ← readOnce name a.name (readString value) }
    | "args" =>
      return { a with arguments := ← readOnce name a.arguments (readList c readString value) }
    | "weight" => return { a with weight := ← readOnce name a.weight (readFloat value) }
    | "emit" => return { a with emit := ← readOnce name a.emit (readOptional value) }
    | _ => throw (.unknownField name alternativeFields)
  let a ← readRecord c "struct AlternativeDefinition" alternativeFields {} set d
  return ⟨← needed "name" a.name, a.arguments.getD [], ← needed "weight" a.weight,
    a.emit.getD none⟩

/-- A rule of which some fields are known. -/
structure PartialRule where
  name : Option String := none
  alternatives : Option (List (AlternativeDefinition Float)) := none

def ruleFields : List String := ["name", "alternatives"]

def readRule (c : Conventions) (d : Datum) : Except Fault (RuleDefinition Float) := do
  let set (r : PartialRule) (name : String) (value : Datum) : Except Fault PartialRule := do
    match name with
    | "name" => return { r with name := ← readOnce name r.name (readString value) }
    | "alternatives" =>
      return { r with
        alternatives := ← readOnce name r.alternatives (readList c (readAlternative c) value) }
    | _ => throw (.unknownField name ruleFields)
  let r ← readRecord c "struct RuleDefinition" ruleFields {} set d
  return ⟨← needed "name" r.name, ← needed "alternatives" r.alternatives⟩

/-- A definition of which some fields are known. -/
structure PartialDefinition where
  name : Option String := none
  start : Option String := none
  fallback : Option String := none
  rules : Option (List (RuleDefinition Float)) := none

def definitionFields : List String := ["name", "start", "fallback", "rules"]

def readDefinition (c : Conventions) (d : Datum) : Except Fault (Definition Float) := do
  let set (g : PartialDefinition) (name : String) (value : Datum) :
      Except Fault PartialDefinition := do
    match name with
    | "name" => return { g with name := ← readOnce name g.name (readString value) }
    | "start" => return { g with start := ← readOnce name g.start (readString value) }
    | "fallback" => return { g with fallback := ← readOnce name g.fallback (readString value) }
    | "rules" => return { g with rules := ← readOnce name g.rules (readList c (readRule c) value) }
    | _ => throw (.unknownField name definitionFields)
  let g ← readRecord c "struct GrammarDefinition" definitionFields {} set d
  return ⟨← needed "name" g.name, g.start.getD defaultStart, g.fallback.getD defaultFallback,
    ← needed "rules" g.rules⟩

/-- A JSON text as an untyped value. -/
structure ValueReading where
  /-- The value that the text begins with, unless there is a fault in it. -/
  value? : Option Datum
  /-- Whether only blanks follow the value. -/
  complete : Bool

/-- How texts are read as untyped values, and such values as definitions. -/
structure Readers where
  documents : String → List (Except Fault Datum)
  value : String → ValueReading
  definitionOfDocument : Datum → Except Fault (Definition Float)
  definitionOfValue : Datum → Except Fault (Definition Float)

/-- The readers of this library. -/
def Readers.standard : Readers where
  documents text := (Yaml.documents text).map (·.datum)
  value text :=
    let reading := Json.read text
    ⟨reading.value.datum?, reading.complete⟩
  definitionOfDocument := readDefinition yamlConventions
  definitionOfValue := readDefinition jsonConventions

/-- Why definitions cannot be read from a text. -/
inductive DefinitionFault where
  /-- A YAML document cannot be read as a value. -/
  | yaml (cause : Fault)
  /-- A YAML document is no definition. -/
  | shape (cause : Fault)
  /-- A JSON text holds neither a definition nor an array of them. -/
  | json (cause : Fault)

section Framing

variable (read : Datum → Except Fault (Definition Float))

/-- The definition of an untyped YAML document, if it is not empty. -/
def definitionOfDatum (value : Except Fault Datum) :
    Except DefinitionFault (Option (Definition Float)) :=
  match value with
  | .error fault => .error (.yaml fault)
  | .ok d =>
    if d.isNull then .ok none
    else
      match read d with
      | .ok definition => .ok (some definition)
      | .error fault => .error (.shape fault)

/-- The definitions of untyped YAML documents, up to the first that is faulty. -/
def definitionsOfData : List (Except Fault Datum) → Except DefinitionFault (List (Definition Float))
  | [] => .ok []
  | value :: rest => do
    match ← definitionOfDatum read value with
    | some definition => return definition :: (← definitionsOfData rest)
    | none => definitionsOfData rest

/-- The definitions of an untyped JSON value: one, or else an array of them. -/
def definitionsOfDatum? (d : Datum) : Option (List (Definition Float)) :=
  match read d with
  | .ok definition => some [definition]
  | .error _ => (readList jsonConventions read d).toOption

/-- The definitions of a JSON text. A value of the wrong shape is reported even if text follows. -/
def definitionsOfReading (reading : ValueReading) :
    Except DefinitionFault (List (Definition Float)) :=
  match reading.value? with
  | none => .error (.json .illFormed)
  | some d =>
    match definitionsOfDatum? read d with
    | none => .error (.json .noVariant)
    | some definitions => if reading.complete then .ok definitions else .error (.json .illFormed)

end Framing

def definitions (format : Format) (text : String) (readers : Readers := .standard) :
    Except DefinitionFault (List (Definition Float)) :=
  match format with
  | .yaml => definitionsOfData readers.definitionOfDocument (readers.documents text)
  | .json => definitionsOfReading readers.definitionOfValue (readers.value text)

end SeededArt.Document
