import SeededArt.Proofs.Registry.History
/-!
# A registry with a hash table

A `GrammarTable` keeps grammars in a hash table under their names, changes it in place, and sorts
the keys when the names are asked for. Its calls have the answers of a registry and leave the same
grammars (`GrammarTable.Represents.call_alike`), so what holds of a registry holds of the table:
after any calls on a new one or on that of the library, every entry is the first grammar that was
tried under its name, and the names are as many as the entries and in ascending order
(`Registry.run_coherent`).
-/

namespace SeededArt

open Document Text

/-- Grammars in a hash table, by their names. -/
structure GrammarTable where
  table : Std.HashMap String (Grammar Float) := ∅

namespace GrammarTable

variable {ε : Type}

def contains (t : GrammarTable) (name : String) : Bool := t.table.contains name

def size (t : GrammarTable) : Nat := t.table.size

/-- The keys of the table, sorted. -/
def names (t : GrammarTable) : List String :=
  t.table.keys.mergeSort fun a b => !decide (Precedes b a)

/-- The entry of a name, or an error that lists the names. -/
def get (t : GrammarTable) (name : String) : Except (Error Float ε) (Grammar Float) :=
  match t.table[name]? with
  | some g => .ok g
  | none => .error (.unknownGrammar name t.names)

def insert (t : GrammarTable) (g : Grammar Float) : Except (Error Float ε) GrammarTable :=
  if t.contains g.name then .error (.repeatedGrammar g.name) else .ok ⟨t.table.insert g.name g⟩

/-- Adds entries one by one, up to the first that is refused, and answers the names so far. -/
def insertAll (t : GrammarTable) (added : List String) :
    List (Grammar Float) → Except (Error Float ε) (List String) × GrammarTable
  | [] => (.ok added, t)
  | g :: rest =>
    match t.insert g with
    | .error e => (.error e, t)
    | .ok t => t.insertAll (added ++ [g.name]) rest

def load (t : GrammarTable) (format : Format) (text : String) :
    Except (Error Float ε) (List String) × GrammarTable :=
  match readGrammars format text with
  | .error e => (.error e, t)
  | .ok gs => t.insertAll [] gs

def loadFile (t : GrammarTable) (path : String) (content : FileContent) :
    Except (Error Float ε) (List String) × GrammarTable :=
  match Format.ofPath? path with
  | none => (.error (.unsupportedFile path), t)
  | some format =>
    match content.text with
    | .error cause => (.error (.unreadableFile path cause), t)
    | .ok text => t.load format text

def standard : Except (Error Float ε) GrammarTable :=
  match Builtin.all (α := Float) with
  | .error cause => .error (.grammar cause)
  | .ok gs => gs.foldlM insert {}

def call (t : GrammarTable) : RegistryCall → Except (Error Float ε) (List String) × GrammarTable
  | .insert g =>
    match t.insert g with
    | .ok after => (.ok [g.name], after)
    | .error e => (.error e, t)
  | .load format text => t.load format text
  | .loadFile path content => t.loadFile path content

def run (ε : Type) (t : GrammarTable) (calls : List RegistryCall) : GrammarTable :=
  calls.foldl (fun t c => (t.call (ε := ε) c).2) t

/-! ## Sorted keys -/

/-- Keys that are sorted are in ascending order, as no two are the same. -/
theorem pairwise_names (t : GrammarTable) : t.names.Pairwise Precedes := by
  have hsorted : t.names.Pairwise fun a b => (!decide (Precedes b a)) = true := by
    refine List.pairwise_mergeSort (fun a b c hab hbc => ?_) (fun a b => ?_) _
    · simp only [Bool.not_eq_true', decide_eq_false_iff_not] at hab hbc ⊢
      intro hca
      by_cases hba : b = a
      · exact hbc (hba ▸ hca)
      · exact hbc (hca.trans (Precedes.total hab hba))
    · by_cases hba : Precedes b a
      · have hab : ¬Precedes a b := fun hab => Precedes.irrefl a (hab.trans hba)
        simp [hab]
      · simp [hba]
  have hnodup : t.names.Nodup := (List.mergeSort_perm _ _).nodup_iff.2 Std.HashMap.nodup_keys
  refine hsorted.imp₂ (fun a b hab hne => ?_) hnodup
  simp only [Bool.not_eq_true', decide_eq_false_iff_not] at hab
  exact Precedes.total hab (Ne.symm hne)

theorem mem_names {t : GrammarTable} {name : String} :
    name ∈ t.names ↔ t.contains name = true := by
  unfold names contains
  rw [List.mem_mergeSort, Std.HashMap.mem_keys, Std.HashMap.contains_iff_mem]

theorem length_names (t : GrammarTable) : t.names.length = t.size := by
  unfold names size
  rw [List.length_mergeSort, Std.HashMap.length_keys]

/-! ## Tables and registries -/

/-- A table has the grammars of a registry, in which no two have the same name. -/
structure Represents (t : GrammarTable) (r : Registry Float) : Prop where
  distinct : r.HasDistinctNames
  look_up : ∀ name, t.table[name]? = r.find? name

theorem represents_empty : ({} : GrammarTable).Represents {} :=
  ⟨Registry.hasDistinctNames_nil, fun name => by simp [Registry.find?]⟩

namespace Represents

variable {t : GrammarTable} {r after : Registry Float} {g : Grammar Float}

theorem contains_eq (h : t.Represents r) (name : String) : t.contains name = r.contains name := by
  rw [contains, Std.HashMap.contains_eq_isSome_getElem?, h.look_up, Registry.contains]

theorem names_eq (h : t.Represents r) : t.names = r.names := by
  refine eq_of_pairwise_precedes t.pairwise_names (pairwise_nameSet _) fun name => ?_
  rw [mem_names, h.contains_eq, ← Registry.mem_names, Registry.names]

theorem size_eq (h : t.Represents r) : t.size = r.size := by
  rw [← length_names, h.names_eq, h.distinct.length_names]

theorem get_eq (h : t.Represents r) (name : String) : t.get (ε := ε) name = r.get name := by
  unfold get Registry.get
  rw [h.look_up, h.names_eq]
  cases r.find? name <;> rfl

theorem insert_of_contains (h : t.Represents r) (hcontains : r.contains g.name = true) :
    t.insert (ε := ε) g = .error (.repeatedGrammar g.name) := by
  unfold insert
  rw [h.contains_eq, if_pos hcontains]

theorem exists_insert (h : t.Represents r) (hcontains : r.contains g.name = false) :
    ∃ longer, t.insert (ε := ε) g = .ok longer ∧ longer.Represents (r.extend [g]) := by
  refine ⟨⟨t.table.insert g.name g⟩, ?_, h.distinct.extend ?_, fun name => ?_⟩
  · unfold insert
    rw [h.contains_eq, if_neg (by simp [hcontains])]
  · exact Registry.addable_cons_iff.2 ⟨hcontains, Registry.addable_nil⟩
  · rw [Std.HashMap.getElem?_insert, h.look_up,
      Registry.find?_insert (Registry.insert_of_not_contains (ε := Empty) hcontains)]
    by_cases hname : name = g.name
    · simp [hname]
    · simp [hname, Ne.symm hname]

/-- Entries are added up to the same one, and the names so far go before the others. -/
theorem insertAll_alike (h : t.Represents r) (added : List String) (gs : List (Grammar Float)) :
    (t.insertAll (ε := ε) added gs).1 = (r.insertAll gs).1.map (added ++ ·) ∧
      (t.insertAll (ε := ε) added gs).2.Represents (r.insertAll (ε := ε) gs).2 := by
  induction gs generalizing t r added with
  | nil => exact ⟨by simp [insertAll, Registry.insertAll, Except.map], h⟩
  | cons g gs ih =>
    cases hcontains : r.contains g.name with
    | true =>
      rw [insertAll, Registry.insertAll, h.insert_of_contains hcontains,
        Registry.insert_of_contains hcontains]
      exact ⟨rfl, h⟩
    | false =>
      obtain ⟨longer, hlonger, hrepresents⟩ := h.exists_insert (ε := ε) hcontains
      obtain ⟨hanswer, hlast⟩ := ih hrepresents (added ++ [g.name])
      rw [insertAll, hlonger, Registry.insertAll_cons_of_not_contains hcontains]
      refine ⟨hanswer.trans ?_, hlast⟩
      dsimp only
      cases ((r.extend [g]).insertAll (ε := ε) gs).1 with
      | error => rfl
      | ok names => simp [Except.map]

end Represents

theorem call_eq (t : GrammarTable) (c : RegistryCall) :
    t.call (ε := ε) c =
      match c.grammars with
      | .error e => (.error e, t)
      | .ok gs => t.insertAll [] gs := by
  cases c with
  | insert g =>
    unfold call RegistryCall.grammars
    dsimp only
    rw [insertAll]
    cases t.insert (ε := ε) g <;> rfl
  | load format text => rfl
  | loadFile path content =>
    unfold call RegistryCall.grammars loadFile Registry.readFile
    dsimp only
    cases Format.ofPath? path with
    | none => rfl
    | some format => cases content.text <;> rfl

namespace Represents

variable {t : GrammarTable} {r after : Registry Float}

theorem call_alike (h : t.Represents r) (c : RegistryCall) :
    (t.call (ε := ε) c).1 = (r.call c).1 ∧
      (t.call (ε := ε) c).2.Represents (r.call (ε := ε) c).2 := by
  rw [call_eq, Registry.call_eq]
  cases c.grammars (ε := ε) with
  | error => exact ⟨rfl, h⟩
  | ok gs =>
    obtain ⟨hanswer, hlast⟩ := h.insertAll_alike (ε := ε) [] gs
    refine ⟨hanswer.trans ?_, hlast⟩
    cases (r.insertAll (ε := ε) gs).1 <;> rfl

theorem run (h : t.Represents r) (calls : List RegistryCall) :
    (t.run ε calls).Represents (r.run ε calls) := by
  induction calls generalizing t r with
  | nil => exact h
  | cons c calls ih => exact ih (h.call_alike c).2

theorem exists_foldlM_insert (h : t.Represents r) {gs : List (Grammar Float)}
    (hadded : gs.foldlM (Registry.insert (ε := ε)) r = .ok after) :
    ∃ last, gs.foldlM (insert (ε := ε)) t = .ok last ∧ last.Represents after := by
  induction gs generalizing t r with
  | nil =>
    cases hadded
    exact ⟨t, rfl, h⟩
  | cons g gs ih =>
    rw [List.foldlM_cons] at hadded
    obtain ⟨next, hnext, hadded⟩ := exists_of_bind_eq_ok hadded
    cases hcontains : r.contains g.name with
    | true =>
      rw [Registry.insert_of_contains hcontains] at hnext
      cases hnext
    | false =>
      rw [Registry.insert_of_not_contains hcontains] at hnext
      cases hnext
      obtain ⟨longer, hlonger, hrepresents⟩ := h.exists_insert (ε := ε) hcontains
      obtain ⟨last, hlast, hafter⟩ := ih hrepresents hadded
      refine ⟨last, ?_, hafter⟩
      rw [List.foldlM_cons, hlonger]
      exact hlast

end Represents

/-- A table answers like a registry, whatever it is asked. -/
structure AnswersLike (ε : Type) (t : GrammarTable) (r : Registry Float) : Prop where
  look_up : ∀ name, t.table[name]? = r.find? name
  contains_eq : ∀ name, t.contains name = r.contains name
  get_eq : ∀ name, t.get (ε := ε) name = r.get name
  names_eq : t.names = r.names
  size_eq : t.size = r.size
  call_eq : ∀ c, (t.call (ε := ε) c).1 = (r.call c).1

theorem Represents.answersLike {t : GrammarTable} {r : Registry Float} (h : t.Represents r) :
    t.AnswersLike ε r where
  look_up := h.look_up
  contains_eq := h.contains_eq
  get_eq := h.get_eq
  names_eq := h.names_eq
  size_eq := h.size_eq
  call_eq c := (h.call_alike c).1

end GrammarTable

/-! ## Any calls -/

namespace Registry

variable {ε : Type} {r : Registry Float} {t : GrammarTable}

/-- What a caller can begin with: nothing, or the grammars of the library. -/
inductive Starts (ε : Type) : Registry Float → GrammarTable → Prop where
  | new : Starts ε {} {}
  | standard {r : Registry Float} {t : GrammarTable} : Registry.standard (ε := ε) = .ok r →
      GrammarTable.standard (ε := ε) = .ok t → Starts ε r t

theorem Starts.represents (h : Starts ε r t) : t.Represents r := by
  cases h with
  | new => exact GrammarTable.represents_empty
  | standard hr ht =>
    unfold Registry.standard at hr
    unfold GrammarTable.standard at ht
    cases hall : Builtin.all (α := Float) with
    | error cause =>
      rw [hall] at hr
      cases hr
    | ok gs =>
      rw [hall] at hr ht
      obtain ⟨last, hlast, hrepresents⟩ :=
        GrammarTable.represents_empty.exists_foldlM_insert hr
      obtain rfl : last = t := Except.ok.inj (hlast.symm.trans ht)
      exact hrepresents

/-- Entries have their own names, look-ups find the entries, and the names are those of the entries,
each once and in ascending order. A look-up of another name lists them. -/
structure IsCoherent (ε : Type) (r : Registry Float) : Prop where
  own_name : ∀ name g, r.find? name = some g → g.name = name
  get_eq_ok_iff : ∀ name g, r.get (ε := ε) name = .ok g ↔ r.find? name = some g
  contains_iff : ∀ name, r.contains name = true ↔ ∃ g, r.get (ε := ε) name = .ok g
  ascending : r.names.Pairwise Precedes
  mem_names_iff : ∀ name, name ∈ r.names ↔ r.contains name = true
  length_names : r.names.length = r.size
  unknown : ∀ name, r.contains name = false → ∃ e : Error Float ε, r.get name = .error e ∧
    e.kind = .unknownGrammar ∧
    e.help = some ("Available grammars: " ++ ", ".intercalate r.names)

theorem HasDistinctNames.isCoherent (h : r.HasDistinctNames) : r.IsCoherent ε where
  own_name name g hg := by simpa using List.find?_some hg
  get_eq_ok_iff _ _ := get_eq_ok_iff
  contains_iff name := by
    simp only [contains, Option.isSome_iff_exists, get_eq_ok_iff]
  ascending := pairwise_nameSet _
  mem_names_iff _ := mem_names
  length_names := h.length_names
  unknown name hname := ⟨_, get_of_not_contains hname, rfl, rfl⟩

/-- After any calls, failed or not, a registry is coherent and a table answers like it. A name finds
the first grammar that was tried under it, from the beginning on, and finds it after any further
calls. -/
theorem run_coherent (hstart : Starts ε r t) (calls : List RegistryCall) :
    (r.run ε calls).IsCoherent ε ∧ (t.run ε calls).AnswersLike ε (r.run ε calls) ∧
      (∀ name, (r.run ε calls).find? name =
        (r.grammars ++ r.triedByAll ε calls).find? (·.name == name)) ∧
      ∀ later name g, (r.run ε calls).find? name = some g →
        (r.run ε (calls ++ later)).find? name = some g := by
  have hrepresents := hstart.represents.run (ε := ε) calls
  refine ⟨(hstart.represents.distinct.run calls).isCoherent, hrepresents.answersLike,
    fun name => ?_, ?_⟩
  · rw [find?_run, List.find?_append, find?]
  · intro later name g hg
    unfold run
    rw [List.foldl_append]
    exact find?_run_of_find? hg later

theorem exists_starts (ε : Type) :
    ∃ (r : Registry Float) (t : GrammarTable), Starts ε r t ∧
      r.grammars.map (·.name) = Builtin.names := by
  obtain ⟨r, hstandard, hall, hnames, -⟩ := exists_standard
  have hadded : r.grammars.foldlM (insert (ε := ε)) {} = .ok r := by
    have hr := hstandard ε
    unfold Registry.standard at hr
    rwa [hall] at hr
  obtain ⟨t, ht, -⟩ := GrammarTable.represents_empty.exists_foldlM_insert hadded
  refine ⟨r, t, .standard (hstandard ε) ?_, hnames⟩
  unfold GrammarTable.standard
  rw [hall]
  exact ht

/-- The grammars of the library, and a text with two grammars of one name. The first of the two is
found from then on. -/
theorem run_coherent_sameName :
    ∃ (r : Registry Float) (t : GrammarTable) (g h : Grammar Float), Starts Empty r t ∧
      readGrammars (ε := Empty) .json sameName = .ok [g, h] ∧
      (r.run Empty [.load .json sameName]).IsCoherent Empty ∧
      (r.run Empty [.load .json sameName]).names = ["one", "oswald", "perrig", "tsoding"] ∧
      (t.run Empty [.load .json sameName]).names = ["one", "oswald", "perrig", "tsoding"] ∧
      ∀ later, (r.run Empty (.load .json sameName :: later)).find? "one" = some g := by
  obtain ⟨r, t, hstart, hnames⟩ := exists_starts Empty
  obtain ⟨gs, hgs, hread⟩ := exists_of_readsAs readsAs_sameName
  simp only [List.map_eq_cons_iff, List.map_eq_nil_iff] at hread
  obtain ⟨g, _, rfl, hg, h, _, rfl, hh, rfl⟩ := hread
  obtain ⟨hcoherent, hanswers, -, hkept⟩ := run_coherent hstart [.load .json sameName]
  have hcontains : ∀ name, r.contains name = true ↔ name ∈ Builtin.names := by
    intro name
    rw [contains_iff, hnames]
  have hnew : r.contains g.name = false := by
    rw [← Bool.not_eq_true, hcontains, hg]
    decide
  have hadd : r.Addable [g] := addable_cons_iff.2 ⟨hnew, addable_nil⟩
  have htaken : (r.extend [g]).contains h.name = true := by
    rw [contains_extend]
    exact .inr (by simp [hg, hh])
  have hrun : r.run Empty [.load .json sameName] = r.extend [g] := by
    show (r.load (ε := Empty) .json sameName).2 = _
    rw [load, hgs]
    exact congrArg Prod.snd (insertAll_of_contains hadd htaken)
  have hall : (r.run Empty [.load .json sameName]).names =
      ["one", "oswald", "perrig", "tsoding"] := by
    rw [hrun, names, extend, List.map_append, hnames, List.map_singleton, hg]
    decide
  refine ⟨r, t, g, h, hstart, hgs, hcoherent, hall, hanswers.names_eq.trans hall, fun later => ?_⟩
  refine hkept later "one" g ?_
  rw [hrun, ← hg]
  exact find?_extend_of_mem hadd List.mem_cons_self

end Registry

end SeededArt
