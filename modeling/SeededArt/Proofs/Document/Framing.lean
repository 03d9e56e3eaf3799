import SeededArt.Proofs.Except
import SeededArt.Registry
/-!
# How texts frame definitions

A YAML text is a list of documents. Each of them is empty (`isBlank`), is a definition (`Holds`) or
has a fault (`Fails`); empty documents count for nothing wherever they stand. A JSON text that is
well formed as a whole denotes one value (`Denotes`), which is a definition or else an array of
definitions (`HoldsAll`).

Whatever the format, the definitions are all read before the first of them is built
(`BuildsInOrder`). So a text with both kinds of faults is refused for one in its definitions.

How a text is read as values, and a value as a definition, does not matter for any of this: the
results hold for all `Readers`, those about arrays for all `Readers.Lawful`, as those of the library
are (`Readers.standard_lawful`).
-/

namespace SeededArt

namespace Document

/-! ## YAML documents -/

section Yaml

variable {read : Datum → Except Fault (Definition Float)} {document : Except Fault Datum}
  {documents : List (Except Fault Datum)} {d : Definition Float} {ds : List (Definition Float)}
  {cause : DefinitionFault}

/-- Whether a document can be read and is empty. -/
def isBlank : Except Fault Datum → Bool
  | .ok value => value.isNull
  | .error _ => false

/-- A document can be read and is a definition. -/
def Holds (read : Datum → Except Fault (Definition Float)) (document : Except Fault Datum)
    (d : Definition Float) : Prop :=
  ∃ value, document = .ok value ∧ value.isNull = false ∧ read value = .ok d

/-- A document cannot be read, or it is neither empty nor a definition. -/
inductive Fails (read : Datum → Except Fault (Definition Float)) :
    Except Fault Datum → DefinitionFault → Prop
  | unread (fault : Fault) : Fails read (.error fault) (.yaml fault)
  | misread {value : Datum} {fault : Fault} (hnull : value.isNull = false)
      (hread : read value = .error fault) : Fails read (.ok value) (.shape fault)

theorem definitionOfDatum_eq_none_iff :
    definitionOfDatum read document = .ok none ↔ isBlank document = true := by
  unfold definitionOfDatum isBlank
  grind

theorem definitionOfDatum_ne_none_iff :
    definitionOfDatum read document ≠ .ok none ↔ isBlank document = false := by
  rw [Ne, definitionOfDatum_eq_none_iff, Bool.not_eq_true]

theorem definitionOfDatum_eq_some_iff :
    definitionOfDatum read document = .ok (some d) ↔ Holds read document d := by
  unfold definitionOfDatum Holds
  grind

theorem definitionOfDatum_eq_error_iff :
    definitionOfDatum read document = .error cause ↔ Fails read document cause := by
  constructor
  · intro h
    unfold definitionOfDatum at h
    split at h
    next fault =>
      cases h
      exact .unread fault
    next value =>
      split at h
      next => cases h
      next hnull =>
        split at h
        next => cases h
        next fault hread =>
          cases h
          exact .misread (Bool.eq_false_iff.2 hnull) hread
  · rintro (fault | ⟨hnull, hread⟩)
    · rfl
    · simp [definitionOfDatum, hnull, hread]

theorem isBlank_or_holds_iff : (isBlank document = true ∨ ∃ d, Holds read document d) ↔
    ∃ held, definitionOfDatum read document = .ok held := by
  rw [Option.exists, definitionOfDatum_eq_none_iff]
  simp only [definitionOfDatum_eq_some_iff]

/-- What is read of documents: the definitions, without the empty documents between them. -/
theorem definitionsOfData_eq (read : Datum → Except Fault (Definition Float))
    (documents : List (Except Fault Datum)) :
    definitionsOfData read documents =
      (documents.mapM (definitionOfDatum read)).map fun held => held.filterMap id := by
  induction documents with
  | nil => rfl
  | cons document documents ih =>
    rw [definitionsOfData, List.mapM_cons, ih]
    cases definitionOfDatum read document with
    | error cause => rfl
    | ok held => cases held <;> cases documents.mapM (definitionOfDatum read) <;> rfl

/-- The definitions of documents are those that the documents hold, one for one. -/
theorem definitionsOfData_eq_ok_iff : definitionsOfData read documents = .ok ds ↔
    List.Forall₂ (Holds read) (documents.filter (!isBlank ·)) ds := by
  induction documents generalizing ds with
  | nil =>
    rw [definitionsOfData, List.filter_nil, List.forall₂_nil_left_iff, Except.ok.injEq]
    exact eq_comm
  | cons document documents ih =>
    rw [definitionsOfData_eq] at ih
    rw [definitionsOfData_eq, List.mapM_cons]
    cases hdocument : definitionOfDatum read document with
    | error cause =>
      have hblank : isBlank document = false :=
        definitionOfDatum_ne_none_iff.1 (by rw [hdocument]; exact nofun)
      rw [List.filter_cons_of_pos (by rw [hblank]; rfl), List.forall₂_cons_left_iff]
      simp only [← definitionOfDatum_eq_some_iff, hdocument]
      exact ⟨nofun, nofun⟩
    | ok held =>
      cases held with
      | none =>
        have hblank := definitionOfDatum_eq_none_iff.1 hdocument
        rw [List.filter_cons_of_neg (by rw [hblank]; exact nofun), ← ih]
        cases documents.mapM (definitionOfDatum read) <;> rfl
      | some d =>
        have hblank : isBlank document = false :=
          definitionOfDatum_ne_none_iff.1 (by rw [hdocument]; exact nofun)
        rw [List.filter_cons_of_pos (by rw [hblank]; rfl), List.forall₂_cons_left_iff]
        simp only [← definitionOfDatum_eq_some_iff, hdocument, ← ih]
        cases documents.mapM (definitionOfDatum read) with
        | error cause => exact ⟨nofun, nofun⟩
        | ok held =>
          show Except.ok (d :: held.filterMap id) = .ok ds ↔ _
          simp [Except.map, eq_comm]

/-- Reading documents fails as the first document with a fault does. -/
theorem definitionsOfData_eq_error_iff : definitionsOfData read documents = .error cause ↔
    ∃ before document after, documents = before ++ document :: after ∧
      (∀ b ∈ before, isBlank b = true ∨ ∃ d, Holds read b d) ∧ Fails read document cause := by
  have hmap : definitionsOfData read documents = .error cause ↔
      documents.mapM (definitionOfDatum read) = .error cause := by
    rw [definitionsOfData_eq]
    cases documents.mapM (definitionOfDatum read) <;> simp [Except.map]
  rw [hmap, mapM_eq_error_iff]
  simp only [isBlank_or_holds_iff, definitionOfDatum_eq_error_iff]

end Yaml

/-! ## JSON texts -/

section Json

variable {read : Datum → Except Fault (Definition Float)} {reading : ValueReading} {value : Datum}
  {items : List Datum} {ds : List (Definition Float)}

/-- A text is well formed as a whole, and this is the value that it denotes. -/
def ValueReading.Denotes (reading : ValueReading) (value : Datum) : Prop :=
  reading = ⟨some value, true⟩

def IsObject (value : Datum) : Prop := ∃ entries, value = .mapping entries

/-- A value is one definition; or it is none, but an array of definitions. -/
inductive HoldsAll (read : Datum → Except Fault (Definition Float)) :
    Datum → List (Definition Float) → Prop
  | one {value : Datum} {d : Definition Float} (hread : read value = .ok d) :
      HoldsAll read value [d]
  | many {items : List Datum} {ds : List (Definition Float)}
      (hone : ∀ d, read (.sequence items) ≠ .ok d)
      (hread : List.Forall₂ (fun item d => read item = .ok d) items ds) :
      HoldsAll read (.sequence items) ds

/-- JSON has no tags, and a definition that is an array of its fields begins with a string. -/
structure Readers.Lawful (r : Readers) : Prop where
  untagged (text : String) (value : Datum) :
    (r.value text).Denotes value → value.untagged = value
  startsWithString (items : List Datum) (d : Definition Float) :
    r.definitionOfValue (.sequence items) = .ok d →
      ∃ first rest name, items = first :: rest ∧ readString first = .ok name

theorem untagged_of_datum? {v : Json.Value} (h : v.datum? = some value) :
    value.untagged = value := by
  cases v with
  | number n => cases n <;> cases h <;> rfl
  | array items closed =>
    rw [Json.Value.datum?, Option.ite_none_right_eq_some, Option.map_eq_some_iff] at h
    obtain ⟨-, _, -, rfl⟩ := h
    rfl
  | object members closed =>
    rw [Json.Value.datum?, Option.ite_none_right_eq_some, Option.map_eq_some_iff] at h
    obtain ⟨-, _, -, rfl⟩ := h
    rfl
  | _ => cases h <;> rfl

theorem exists_of_readDefinition_sequence {d : Definition Float}
    (h : readDefinition jsonConventions (.sequence items) = .ok d) :
    ∃ first rest name, items = first :: rest ∧ readString first = .ok name := by
  cases items with
  | nil => cases h
  | cons first rest =>
    obtain ⟨_, hrecord, -⟩ := exists_of_bind_eq_ok h
    simp only [readRecord, Datum.untagged, jsonConventions, definitionFields, List.zip_cons_cons,
      List.foldlM_cons] at hrecord
    split at hrecord
    next => cases hrecord
    next =>
      -- the first step of the fold reads the name
      obtain ⟨_, hfirst, -⟩ := exists_of_bind_eq_ok hrecord
      obtain ⟨_, hname, -⟩ := exists_of_bind_eq_ok hfirst
      cases hread : readString first with
      | error fault =>
        rw [hread] at hname
        cases hname
      | ok name => exact ⟨first, rest, name, rfl, hread⟩

theorem Readers.standard_lawful : Readers.standard.Lawful := by
  refine ⟨fun text value h => ?_, fun items d h => exists_of_readDefinition_sequence h⟩
  exact untagged_of_datum? (congrArg ValueReading.value? h)

theorem readList_eq_ok_iff {β : Type} {c : Conventions} {read : Datum → Except Fault β}
    {bs : List β} (huntagged : value.untagged = value) (hnull : c.nullAsEmpty = false) :
    readList c read value = .ok bs ↔
      ∃ items, value = .sequence items ∧ items.mapM read = .ok bs := by
  unfold readList
  rw [huntagged, hnull]
  cases value <;> simp

theorem definitionsOfDatum?_eq_some_iff (huntagged : value.untagged = value) :
    definitionsOfDatum? read value = some ds ↔ HoldsAll read value ds := by
  unfold definitionsOfDatum?
  split
  next d hone =>
    rw [Option.some.injEq]
    constructor
    · rintro rfl
      exact .one hone
    · rintro (hread | ⟨hnone, -⟩)
      · rw [Except.ok.inj (hone.symm.trans hread)]
      · exact absurd hone (hnone d)
  next fault hnone =>
    have hlist : ∀ x : Except Fault (List (Definition Float)),
        x.toOption = some ds ↔ x = .ok ds := by
      rintro (_ | _) <;> simp [Except.toOption]
    rw [hlist, readList_eq_ok_iff huntagged rfl]
    constructor
    · rintro ⟨items, rfl, hitems⟩
      exact .many (fun d hd => nomatch hnone.symm.trans hd) (mapM_eq_ok_iff.1 hitems)
    · rintro (hread | ⟨-, hitems⟩)
      · exact nomatch hnone.symm.trans hread
      · exact ⟨_, rfl, mapM_eq_ok_iff.2 hitems⟩

theorem ValueReading.Denotes.definitionsOfReading_eq (h : reading.Denotes value) :
    definitionsOfReading read reading =
      match definitionsOfDatum? read value with
      | some ds => .ok ds
      | none => .error (.json .noVariant) := by
  rw [h]
  simp only [definitionsOfReading, if_true]
  cases definitionsOfDatum? read value <;> rfl

theorem definitionsOfReading_eq_ok_iff
    (huntagged : ∀ value, reading.Denotes value → value.untagged = value) :
    definitionsOfReading read reading = .ok ds ↔
      ∃ value, reading.Denotes value ∧ HoldsAll read value ds := by
  constructor
  · intro h
    obtain ⟨value?, complete⟩ := reading
    simp only [definitionsOfReading] at h
    split at h
    next => cases h
    next value =>
      split at h
      next => cases h
      next held hheld =>
        split at h
        next hcomplete =>
          cases h
          have hdenotes : ValueReading.Denotes ⟨some value, complete⟩ value := by
            rw [ValueReading.Denotes, hcomplete]
          exact ⟨value, hdenotes,
            (definitionsOfDatum?_eq_some_iff (huntagged value hdenotes)).1 hheld⟩
        next => cases h
  · rintro ⟨value, hdenotes, hholds⟩
    rw [hdenotes.definitionsOfReading_eq,
      (definitionsOfDatum?_eq_some_iff (huntagged value hdenotes)).2 hholds]

/-- An array of objects is never a definition: an object is no string. -/
theorem Readers.Lawful.ne_ok_of_objects {r : Readers} (hr : r.Lawful)
    (h : ∀ item ∈ items, IsObject item) (d : Definition Float) :
    r.definitionOfValue (.sequence items) ≠ .ok d := by
  intro hd
  obtain ⟨first, rest, name, rfl, hname⟩ := hr.startsWithString items d hd
  obtain ⟨entries, rfl⟩ := h first List.mem_cons_self
  cases hname

theorem holdsAll_objects_iff (hone : ∀ d, read (.sequence items) ≠ .ok d) :
    HoldsAll read (.sequence items) ds ↔
      List.Forall₂ (fun item d => read item = .ok d) items ds := by
  constructor
  · rintro (hread | ⟨-, hitems⟩)
    · exact absurd hread (hone _)
    · exact hitems
  · exact .many hone

theorem holdsAll_singleton_iff (hone : ∀ d, read (.sequence [value]) ≠ .ok d)
    (hobject : IsObject value) :
    HoldsAll read (.sequence [value]) ds ↔ HoldsAll read value ds := by
  rw [holdsAll_objects_iff hone, List.forall₂_cons_left_iff]
  simp only [List.forall₂_nil_left_iff]
  constructor
  · rintro ⟨d, _, hread, rfl, rfl⟩
    exact .one hread
  · rintro (hread | _)
    · exact ⟨_, [], hread, rfl, rfl⟩
    · obtain ⟨_, h⟩ := hobject
      cases h

theorem ValueReading.Denotes.eq {other : Datum} (h : reading.Denotes value)
    (hother : reading.Denotes other) : value = other := by
  rw [ValueReading.Denotes] at h hother
  exact Option.some.inj (congrArg ValueReading.value? (h.symm.trans hother))

/-- Texts whose values hold the same definitions are read as the same definitions. -/
theorem ValueReading.Denotes.definitionsOfReading_congr {other : ValueReading} {otherValue : Datum}
    (h : reading.Denotes value) (hother : other.Denotes otherValue)
    (huntagged : value.untagged = value) (hotherUntagged : otherValue.untagged = otherValue)
    (hsame : ∀ ds, HoldsAll read otherValue ds ↔ HoldsAll read value ds) :
    definitionsOfReading read other = definitionsOfReading read reading := by
  have hvalues : definitionsOfDatum? read otherValue = definitionsOfDatum? read value := by
    refine Option.ext fun ds => ?_
    rw [definitionsOfDatum?_eq_some_iff hotherUntagged, definitionsOfDatum?_eq_some_iff huntagged,
      hsame]
  rw [h.definitionsOfReading_eq, hother.definitionsOfReading_eq, hvalues]

end Json

end Document

open Document

/-! ## Building -/

section Building

variable {ε : Type} {r : Readers} {format : Format} {text : String} {d : Definition Float}
  {ds : List (Definition Float)}

/-- The outcome of a text that may stand for definitions: all of them are read, and only then built
one after the other. -/
structure BuildsInOrder (StandsFor : List (Definition Float) → Prop)
    (result : Except (Error Float ε) (List (Grammar Float))) : Prop where
  /-- The grammars are those of the definitions, one for one. -/
  ok_iff (gs : List (Grammar Float)) :
    result = .ok gs ↔ ∃ ds, StandsFor ds ∧ List.Forall₂ (fun d g => d.build = .ok g) ds gs
  /-- A text that stands for no definitions is refused as such, whatever could be built of it. -/
  parse_iff : (∃ e, result = .error e ∧ e.kind = .parse) ↔ ¬∃ ds, StandsFor ds
  /-- Else the first definition that cannot be built is at fault. -/
  config_iff (e : Error Float ε) : result = .error e ∧ e.kind = .config ↔
    ∃ before d after cause, StandsFor (before ++ d :: after) ∧
      (∀ b ∈ before, ∃ g, b.build = .ok g) ∧ d.build = .error cause ∧ e = .grammar cause
  /-- There are no other errors. -/
  kind_of_error (e : Error Float ε) : result = .error e → e.kind = .parse ∨ e.kind = .config

theorem readGrammars_of_error {cause : DefinitionFault}
    (h : definitions format text r = .error cause) :
    readGrammars (ε := ε) format text r = .error (.definition cause) := by
  unfold readGrammars
  rw [h]
  rfl

theorem readGrammars_of_ok (h : definitions format text r = .ok ds) :
    readGrammars (ε := ε) format text r = ds.mapM fun d => d.build.mapError .grammar := by
  unfold readGrammars
  rw [h]
  refine congrArg (List.mapM · ds) (funext fun d => ?_)
  cases d.build <;> rfl

theorem build_mapError_eq_ok_iff {g : Grammar Float} :
    d.build.mapError (Error.grammar (ε := ε)) = .ok g ↔ d.build = .ok g := by
  cases d.build <;> simp [Except.mapError]

theorem build_mapError_eq_error_iff {e : Error Float ε} :
    d.build.mapError .grammar = .error e ↔
      ∃ cause, d.build = .error cause ∧ e = .grammar cause := by
  cases d.build <;> simp [Except.mapError, eq_comm]

theorem mapM_build_eq_error_iff {e : Error Float ε} :
    (ds.mapM fun d => d.build.mapError .grammar) = .error e ↔
      ∃ before d after cause, ds = before ++ d :: after ∧
        (∀ b ∈ before, ∃ g, b.build = .ok g) ∧ d.build = .error cause ∧ e = .grammar cause := by
  rw [mapM_eq_error_iff]
  simp only [build_mapError_eq_ok_iff, build_mapError_eq_error_iff]
  grind

/-- The fault of a text's definitions is never one of a grammar. -/
theorem readGrammars_eq_definition_iff {cause : DefinitionFault} :
    readGrammars (ε := ε) format text r = .error (.definition cause) ↔
      definitions format text r = .error cause := by
  refine ⟨fun h => ?_, readGrammars_of_error⟩
  cases hdefinitions : definitions format text r with
  | error other =>
    rw [readGrammars_of_error hdefinitions] at h
    cases h
    rfl
  | ok ds =>
    rw [readGrammars_of_ok hdefinitions] at h
    obtain ⟨_, _, _, _, _, _, _, hcause⟩ := mapM_build_eq_error_iff.1 h
    cases hcause

/-- Whatever the format, the definitions of a text are read before they are built. -/
theorem readGrammars_buildsInOrder {StandsFor : List (Definition Float) → Prop}
    (h : ∀ ds, definitions format text r = .ok ds ↔ StandsFor ds) :
    BuildsInOrder StandsFor (readGrammars (ε := ε) format text r) := by
  cases hdefinitions : definitions format text r with
  | error cause =>
    have hnone : ∀ ds, ¬StandsFor ds := by
      intro ds
      rw [← h, hdefinitions]
      exact nofun
    rw [readGrammars_of_error hdefinitions]
    refine ⟨fun gs => ⟨nofun, fun ⟨ds, hds, _⟩ => absurd hds (hnone ds)⟩, ?_, fun e => ?_, ?_⟩
    · exact ⟨fun _ ⟨ds, hds⟩ => hnone ds hds, fun _ => ⟨_, rfl, rfl⟩⟩
    · constructor
      · rintro ⟨he, hkind⟩
        cases he
        cases hkind
      · rintro ⟨before, d, after, _, hds, -⟩
        exact absurd hds (hnone _)
    · intro e he
      cases he
      exact .inl rfl
  | ok ds =>
    have honly : ∀ ds', StandsFor ds' ↔ ds = ds' := by
      intro ds'
      rw [← h, hdefinitions, Except.ok.injEq]
    have hconfig : ∀ e : Error Float ε, (ds.mapM fun d => d.build.mapError .grammar) = .error e →
        e.kind = .config := by
      intro e he
      obtain ⟨_, _, _, cause, _, _, _, rfl⟩ := mapM_build_eq_error_iff.1 he
      rfl
    rw [readGrammars_of_ok hdefinitions]
    refine ⟨fun gs => ?_, ?_, fun e => ?_, fun e he => .inr (hconfig e he)⟩
    · rw [mapM_eq_ok_iff]
      simp only [build_mapError_eq_ok_iff, honly, exists_eq_left']
    · refine ⟨fun ⟨e, he, hparse⟩ => ?_, fun hnone => absurd ⟨ds, (honly ds).2 rfl⟩ hnone⟩
      exact nomatch (hconfig e he).symm.trans hparse
    · rw [and_iff_left_of_imp (hconfig e), mapM_build_eq_error_iff]
      simp only [honly]

/-! ## Texts of both formats -/

/-- What comes of a YAML text. -/
structure FramesYaml (r : Readers) (ε : Type) (text : String) : Prop where
  /-- It stands for the definitions of its documents, one for one, empty documents left out. -/
  inOrder : BuildsInOrder
    (List.Forall₂ (Holds r.definitionOfDocument) ((r.documents text).filter (!isBlank ·)))
    (readGrammars (ε := ε) .yaml text r)
  /-- If it stands for none, the first document with a fault is at fault. -/
  definition_iff (cause : DefinitionFault) :
    readGrammars (ε := ε) .yaml text r = .error (.definition cause) ↔
      ∃ before document after, r.documents text = before ++ document :: after ∧
        (∀ b ∈ before, isBlank b = true ∨ ∃ d, Holds r.definitionOfDocument b d) ∧
        Fails r.definitionOfDocument document cause

/-- What comes of a JSON text. -/
structure FramesJson (r : Readers) (ε : Type) (text : String) : Prop where
  /-- It stands for the definitions of its value. -/
  inOrder : BuildsInOrder
    (fun ds => ∃ value, (r.value text).Denotes value ∧ HoldsAll r.definitionOfValue value ds)
    (readGrammars (ε := ε) .json text r)
  /-- An array of objects is not one definition; it stands for those of its items, one for one. -/
  array (items : List Datum) (hdenotes : (r.value text).Denotes (.sequence items))
    (hobjects : ∀ item ∈ items, IsObject item) :
    (∀ d, r.definitionOfValue (.sequence items) ≠ .ok d) ∧
      BuildsInOrder (List.Forall₂ (fun item d => r.definitionOfValue item = .ok d) items)
        (readGrammars (ε := ε) .json text r)
  /-- An object gives what the array of this one object gives. -/
  object (value : Datum) (array : String) (hdenotes : (r.value text).Denotes value)
    (hobject : IsObject value) (harray : (r.value array).Denotes (.sequence [value])) :
    readGrammars (ε := ε) .json text r = readGrammars .json array r

theorem framesYaml (r : Readers) (ε : Type) (text : String) : FramesYaml r ε text := by
  refine ⟨readGrammars_buildsInOrder fun ds => definitionsOfData_eq_ok_iff, fun cause => ?_⟩
  rw [readGrammars_eq_definition_iff]
  exact definitionsOfData_eq_error_iff

theorem Document.Readers.Lawful.framesJson (hr : r.Lawful) (ε : Type) (text : String) :
    FramesJson r ε text := by
  have hdefinitions : ∀ ds, definitions .json text r = .ok ds ↔
      ∃ value, (r.value text).Denotes value ∧ HoldsAll r.definitionOfValue value ds :=
    fun ds => definitionsOfReading_eq_ok_iff (hr.untagged text)
  refine ⟨readGrammars_buildsInOrder hdefinitions,
    fun items hdenotes hobjects => ⟨hr.ne_ok_of_objects hobjects, ?_⟩,
    fun value array hdenotes hobject harray => ?_⟩
  · refine readGrammars_buildsInOrder fun ds => ?_
    rw [hdefinitions, ← holdsAll_objects_iff (hr.ne_ok_of_objects hobjects)]
    constructor
    · rintro ⟨value, hvalue, hholds⟩
      rwa [hdenotes.eq hvalue]
    · exact fun hholds => ⟨_, hdenotes, hholds⟩
  · have hone := hr.ne_ok_of_objects (List.forall_mem_singleton.2 hobject)
    have hsame : definitions .json array r = definitions .json text r :=
      hdenotes.definitionsOfReading_congr harray (hr.untagged text value hdenotes) rfl
        fun ds => holdsAll_singleton_iff hone hobject
    unfold readGrammars
    rw [hsame]

/-- Texts of both formats are read as a whole before the first grammar is built, whatever the
readers are, and so by the readers of the library. -/
theorem readGrammars_frames (ε : Type) (text : String) :
    (∀ r : Readers, FramesYaml r ε text ∧ (r.Lawful → FramesJson r ε text)) ∧
      FramesYaml .standard ε text ∧ FramesJson .standard ε text :=
  ⟨fun r => ⟨framesYaml r ε text, fun hr => hr.framesJson ε text⟩,
    framesYaml .standard ε text, Readers.standard_lawful.framesJson ε text⟩

end Building

/-! ## Readings of small texts -/

namespace Yaml

variable (slots : List (Nat × Node)) (depth : Nat) (path : Option String) (bare : Bool)

/-- A scalar in quotes. -/
def quoted (text : String) : Node := .scalar none none .doubleQuoted text

theorem readNode_quoted (text : String) :
    readNode slots depth path bare (quoted text) = pure (.string text) := by
  unfold readNode
  cases bare <;> rfl

theorem readNode_one :
    readNode slots depth path bare (.scalar none none .plain "1") = pure (.integer 1) := by
  unfold readNode
  cases bare <;> rfl

theorem readNode_empty :
    readNode slots depth path bare (.scalar none none .plain "") = pure .null := by
  unfold readNode
  cases bare <;> rfl

theorem readNode_sequence (items : List Node) :
    readNode slots (depth + 1) path false (.sequence none none items) =
      .sequence <$> readItems slots depth path 0 items := by
  rw [readNode, map_eq_pure_bind]
  rfl

theorem readNode_mapping (entries : List (Node × Node)) :
    readNode slots (depth + 1) path false (.mapping none none entries) =
      .mapping <$> readEntries slots depth path false [] entries := by
  rw [readNode, map_eq_pure_bind]
  rfl

end Yaml

section Minimal

open Yaml

/-- A definition with one alternative. -/
def minimal (name : String) : Datum :=
  .mapping [(.string "name", .string name), (.string "start", .string "A"),
    (.string "rules", .sequence [.mapping [(.string "name", .string "A"),
      (.string "alternatives", .sequence [.mapping [(.string "name", .string "x"),
        (.string "weight", .integer 1)]])]])]

def minimalDefinition (name : String) : Definition Float :=
  ⟨name, "A", defaultFallback, [⟨"A", [⟨"x", [], Decimal.doubleOfNat 1, none⟩]⟩]⟩

def minimalText (name : String) : String :=
  "---\n\x7b\"name\":\"" ++ name ++ "\",\"start\":\"A\",\"rules\":[\x7b\"name\":\"A\"," ++
    "\"alternatives\":[\x7b\"name\":\"x\",\"weight\":1\x7d]\x7d]\x7d\n"

def minimalTokens (name : String) : List Token :=
  let word (text : String) : Token := .scalar .doubleQuoted text
  [.documentStart, .flowMappingStart, .key, word "name", .value, word name, .flowEntry,
    .key, word "start", .value, word "A", .flowEntry, .key, word "rules", .value,
    .flowSequenceStart, .flowMappingStart, .key, word "name", .value, word "A", .flowEntry,
    .key, word "alternatives", .value, .flowSequenceStart, .flowMappingStart,
    .key, word "name", .value, word "x", .flowEntry, .key, word "weight", .value,
    .scalar .plain "1", .flowMappingEnd, .flowSequenceEnd, .flowMappingEnd, .flowSequenceEnd,
    .flowMappingEnd]

def minimalNode (name : String) : Node :=
  .mapping none none [(quoted "name", quoted name), (quoted "start", quoted "A"),
    (quoted "rules", .sequence none none [.mapping none none [(quoted "name", quoted "A"),
      (quoted "alternatives", .sequence none none [.mapping none none
        [(quoted "name", quoted "x"), (quoted "weight", .scalar none none .plain "1")]])]])]

/-- Two definitions with an empty document between them. -/
def minimalDocuments : String := minimalText "a" ++ "---\n" ++ minimalText "b"

theorem documents_standard (text : String) :
    Readers.standard.documents text = (documents text).map (·.datum) := by
  rw [Readers.standard]

theorem datum_minimalNode (name : String) :
    (⟨minimalNode name, false, 22⟩ : Tree).datum = .ok (minimal name) := by
  show _ = pure (minimal name)
  simp [Tree.datum, minimalNode, Yaml.nestingLimit, readNode_quoted, readNode_one,
    readNode_sequence, readNode_mapping, readItems, readEntries, Datum.same, minimal]

theorem datum_empty : (⟨.scalar none none .plain "", false, 1⟩ : Tree).datum = .ok .null := by
  show _ = pure Datum.null
  simp [Tree.datum, readNode_empty]

theorem documents_minimalDocuments : Readers.standard.documents minimalDocuments =
    [.ok (minimal "a"), .ok .null, .ok (minimal "b")] := by
  have htokens : tokens minimalDocuments.toList =
      minimalTokens "a" ++ .documentStart :: minimalTokens "b" ++ [.streamEnd] := by
    decide +kernel
  have hdocuments : documents minimalDocuments = [⟨minimalNode "a", false, 22⟩,
      ⟨.scalar none none .plain "", false, 1⟩, ⟨minimalNode "b", false, 22⟩] := by
    rw [documents, htokens]
    rfl
  rw [documents_standard, hdocuments]
  simp only [List.map_cons, List.map_nil, datum_minimalNode, datum_empty]

theorem holds_minimal (name : String) :
    Holds (readDefinition yamlConventions) (.ok (minimal name)) (minimalDefinition name) :=
  ⟨_, rfl, rfl, rfl⟩

theorem exists_build_minimal {name : String} (h : name = "a" ∨ name = "b") :
    ∃ g, (minimalDefinition name).build = .ok g := by
  refine exists_of_isOk ?_
  rcases h with rfl | rfl <;> decide +kernel

/-- A definition that has no rules. -/
def ruleless : Datum := .mapping [(.string "name", .string "a"), (.string "rules", .sequence [])]

def rulelessObject : String := "\x7b\"name\":\"a\",\"rules\":[]\x7d"

def rulelessArray : String := "[\x7b\"name\":\"a\",\"rules\":[]\x7d]"

/-- An empty document, the definition that has no rules, and a document that is no definition. -/
def faultyDocuments : String := "---\n---\n\x7b\"name\":\"a\",\"rules\":[]\x7d\n---\n[]\n"

def rulelessNode : Node :=
  .mapping none none [(quoted "name", quoted "a"), (quoted "rules", .sequence none none [])]

set_option maxRecDepth 10000 in
theorem denotes_rulelessObject : (Readers.standard.value rulelessObject).Denotes ruleless := by
  cbv

set_option maxRecDepth 10000 in
theorem denotes_rulelessArray :
    (Readers.standard.value rulelessArray).Denotes (.sequence [ruleless]) := by
  cbv

theorem datum_rulelessNode : (⟨rulelessNode, false, 7⟩ : Tree).datum = .ok ruleless := by
  show _ = pure ruleless
  simp [Tree.datum, rulelessNode, Yaml.nestingLimit, readNode_quoted, readNode_sequence,
    readNode_mapping, readItems, readEntries, Datum.same, ruleless]

theorem datum_emptySequence :
    (⟨.sequence none none [], false, 2⟩ : Tree).datum = .ok (.sequence []) := by
  show _ = pure (Datum.sequence [])
  simp [Tree.datum, Yaml.nestingLimit, readNode_sequence, readItems]

theorem documents_faultyDocuments : Readers.standard.documents faultyDocuments =
    [.ok .null, .ok ruleless, .ok (.sequence [])] := by
  have htokens : tokens faultyDocuments.toList = [.documentStart, .documentStart,
      .flowMappingStart, .key, .scalar .doubleQuoted "name", .value, .scalar .doubleQuoted "a",
      .flowEntry, .key, .scalar .doubleQuoted "rules", .value, .flowSequenceStart,
      .flowSequenceEnd, .flowMappingEnd, .documentStart, .flowSequenceStart, .flowSequenceEnd,
      .streamEnd] := by
    decide +kernel
  have hdocuments : documents faultyDocuments = [⟨.scalar none none .plain "", false, 1⟩,
      ⟨rulelessNode, false, 7⟩, ⟨.sequence none none [], false, 2⟩] := by
    rw [documents, htokens]
    rfl
  rw [documents_standard, hdocuments]
  simp only [List.map_cons, List.map_nil, datum_empty, datum_rulelessNode, datum_emptySequence]

/-- Documents that build give their grammars, with nothing for the empty one between them. Of two
faulty documents the one that is no definition counts, although it comes last; and an object is read
as its array is. -/
theorem readGrammars_frames_ruleless :
    (∃ g h, Readers.standard.documents minimalDocuments =
          [.ok (minimal "a"), .ok .null, .ok (minimal "b")] ∧
        (minimalDefinition "a").build = .ok g ∧ (minimalDefinition "b").build = .ok h ∧
          readGrammars (ε := Empty) .yaml minimalDocuments = .ok [g, h]) ∧
      (∃ d cause, Readers.standard.documents faultyDocuments =
          [.ok .null, .ok ruleless, .ok (.sequence [])] ∧
        Holds (readDefinition yamlConventions) (.ok ruleless) d ∧ d.build = .error cause ∧
          readGrammars (ε := Empty) .yaml faultyDocuments =
            .error (.definition (.shape (.wrongType .sequence "struct GrammarDefinition")))) ∧
      Readers.standard.Lawful ∧ IsObject ruleless ∧
        (Readers.standard.value rulelessObject).Denotes ruleless ∧
        (Readers.standard.value rulelessArray).Denotes (.sequence [ruleless]) ∧
          readGrammars (ε := Empty) .json rulelessObject = readGrammars .json rulelessArray := by
  obtain ⟨g, hg⟩ := exists_build_minimal (.inl rfl : "a" = "a" ∨ "a" = "b")
  obtain ⟨h, hh⟩ := exists_build_minimal (.inr rfl : "b" = "a" ∨ "b" = "b")
  have hholds : Holds (readDefinition yamlConventions) (.ok ruleless)
      ⟨"a", defaultStart, defaultFallback, []⟩ :=
    ⟨_, rfl, rfl, rfl⟩
  refine ⟨⟨g, h, documents_minimalDocuments, hg, hh, ?_⟩,
    ⟨_, _, documents_faultyDocuments, hholds, rfl, ?_⟩, Readers.standard_lawful, ⟨_, rfl⟩,
    denotes_rulelessObject, denotes_rulelessArray, ?_⟩
  · refine ((readGrammars_frames Empty minimalDocuments).2.1.inOrder.ok_iff [g, h]).2
      ⟨_, ?_, .cons hg (.cons hh .nil)⟩
    rw [documents_minimalDocuments]
    exact .cons (holds_minimal "a") (.cons (holds_minimal "b") .nil)
  · refine ((readGrammars_frames Empty faultyDocuments).2.1.definition_iff _).2
      ⟨[_, _], _, [], documents_faultyDocuments, ?_, .misread rfl rfl⟩
    rintro b (_ | ⟨_, _ | ⟨_, ⟨⟩⟩⟩)
    · exact .inl rfl
    · exact .inr ⟨_, hholds⟩
  · have hframes := (readGrammars_frames Empty rulelessObject).1 .standard
    exact (hframes.2 Readers.standard_lawful).object ruleless rulelessArray denotes_rulelessObject
      ⟨_, rfl⟩ denotes_rulelessArray

end Minimal

end SeededArt
