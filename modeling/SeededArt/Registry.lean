import SeededArt.Error
import SeededArt.Grammar.Builtin
import SeededArt.Text.Names
/-!
# Registries of grammars

A registry holds grammars by their names; the first grammar of a name stays. Loading a text adds
the grammars that it defines one by one, and ends at the first whose name is taken: those before it
stay in the registry.
-/

namespace SeededArt

open Document

variable {α ε : Type} [Arithmetic α]

/-- Grammars by their names, in the order in which they were added. -/
structure Registry (α : Type) [Arithmetic α] where
  grammars : List (Grammar α) := []

/-- The grammars that a text defines. Nothing is built before the whole text is read. -/
def readGrammars (format : Format) (text : String) (readers : Readers := .standard) :
    Except (Error Float ε) (List (Grammar Float)) := do
  match definitions format text readers with
  | .error cause => throw (.definition cause)
  | .ok definitions =>
    definitions.mapM fun d =>
      match d.build with
      | .ok g => .ok g
      | .error cause => .error (.grammar cause)

/-- What a path leads to. -/
inductive FileContent where
  | missing
  | directory
  | bytes (content : ByteArray)

def FileContent.text : FileContent → Except FileFault String
  | missing => .error .missing
  | directory => .error .directory
  | bytes content =>
    match String.fromUTF8? content with
    | some text => .ok text
    | none => .error .notText

namespace Registry

def find? (r : Registry α) (name : String) : Option (Grammar α) :=
  r.grammars.find? (·.name == name)

def contains (r : Registry α) (name : String) : Bool := (r.find? name).isSome

/-- The names, in ascending order. -/
def names (r : Registry α) : List String := Text.nameSet (r.grammars.map (·.name))

def size (r : Registry α) : Nat := r.grammars.length

/-- The grammar of a name, or an error that lists the names. -/
def get (r : Registry α) (name : String) : Except (Error α ε) (Grammar α) :=
  match r.find? name with
  | some g => .ok g
  | none => .error (.unknownGrammar name r.names)

/-- Adds a grammar under its own name. -/
def insert (r : Registry α) (g : Grammar α) : Except (Error α ε) (Registry α) :=
  if r.contains g.name then .error (.repeatedGrammar g.name) else .ok ⟨r.grammars ++ [g]⟩

/-- An added grammar is found under its name, and every other name finds what it found before. -/
theorem find?_insert {r after : Registry α} {g : Grammar α}
    (h : r.insert (ε := ε) g = .ok after) (name : String) :
    after.find? name = if name = g.name then some g else r.find? name := by
  unfold insert at h
  split at h
  next => simp at h
  next habsent =>
    rw [Except.ok.injEq] at h
    subst h
    have absent : r.grammars.find? (·.name == g.name) = none := by
      simpa [contains, find?] using habsent
    simp only [find?, List.find?_append]
    split
    next heq => simp [heq, absent]
    next hne => simp [Ne.symm hne]

/-- Adds grammars one by one, up to the first that is refused, and answers the names of those
added; the registry keeps what was added before. -/
def insertAll (r : Registry α) : List (Grammar α) → Except (Error α ε) (List String) × Registry α
  | [] => (.ok [], r)
  | g :: rest =>
    match r.insert g with
    | .error e => (.error e, r)
    | .ok r =>
      let (result, r) := r.insertAll rest
      (result.map (g.name :: ·), r)

/-- Adds the grammars that a text defines, and answers their names. -/
def load (r : Registry Float) (format : Format) (text : String) :
    Except (Error Float ε) (List String) × Registry Float :=
  match readGrammars format text with
  | .error e => (.error e, r)
  | .ok grammars => r.insertAll grammars

/-- Adds the grammars that a file defines. The path decides the format before the file is read. -/
def loadFile (r : Registry Float) (path : String) (content : FileContent) :
    Except (Error Float ε) (List String) × Registry Float :=
  match Format.ofPath? path with
  | none => (.error (.unsupportedFile path), r)
  | some format =>
    match content.text with
    | .error cause => (.error (.unreadableFile path cause), r)
    | .ok text => r.load format text

def standard : Except (Error α ε) (Registry α) :=
  match Builtin.all (α := α) with
  | .error cause => .error (.grammar cause)
  | .ok grammars => grammars.foldlM insert {}

end Registry

end SeededArt
