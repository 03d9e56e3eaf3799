import Mathlib.Data.List.Nodup
import SeededArt.Registry
/-!
# Loading several grammars

The grammars of a text can all be added if their names are new to the registry and differ from each
other (`Addable`). If not, there is a first one whose name is taken, by the registry or by one
before it in the text (`exists_taken`): loading fails there, and those before it stay.

A load would be all or nothing if it added every grammar of its text or none (`IsAllOrNothing`). It
is so unless a grammar after the first is the one that is refused (`load_addsInOrder`). A text that
names a grammar twice is such a text (`load_sameName`).
-/

namespace SeededArt

open Document

namespace Registry

section Adding

variable {α ε : Type} [Arithmetic α] {r : Registry α} {g : Grammar α} {gs : List (Grammar α)}
  {name : String}

theorem contains_iff : r.contains name = true ↔ name ∈ r.grammars.map (·.name) := by
  unfold contains find?
  rw [List.find?_isSome]
  simp

theorem contains_eq_false_iff : r.contains name = false ↔ r.find? name = none := by
  rw [contains, Option.isSome_eq_false_iff, Option.isNone_iff_eq_none]

theorem get_eq_ok_iff : r.get (ε := ε) name = .ok g ↔ r.find? name = some g := by
  unfold get
  cases r.find? name <;> simp

theorem exists_get (h : r.contains name = true) :
    ∃ g ∈ r.grammars, g.name = name ∧ r.get (ε := ε) name = .ok g := by
  obtain ⟨g, hg⟩ := Option.isSome_iff_exists.1 h
  exact ⟨g, List.mem_of_find?_eq_some hg, by simpa using List.find?_some hg, get_eq_ok_iff.2 hg⟩

theorem get_of_not_contains (h : r.contains name = false) :
    r.get (ε := ε) name = .error (.unknownGrammar name r.names) := by
  unfold get
  rw [contains_eq_false_iff.1 h]

/-- The registry with grammars after those that it holds. -/
def extend (r : Registry α) (gs : List (Grammar α)) : Registry α := ⟨r.grammars ++ gs⟩

@[simp] theorem extend_nil (r : Registry α) : r.extend [] = r := by
  unfold extend
  rw [List.append_nil]

@[simp] theorem extend_extend (r : Registry α) (gs hs : List (Grammar α)) :
    (r.extend gs).extend hs = r.extend (gs ++ hs) := by
  unfold extend
  rw [List.append_assoc]

theorem contains_extend :
    (r.extend gs).contains name = true ↔
      r.contains name = true ∨ name ∈ gs.map (·.name) := by
  rw [contains_iff, contains_iff, extend, List.map_append, List.mem_append]

theorem find?_extend (r : Registry α) (gs : List (Grammar α)) (name : String) :
    (r.extend gs).find? name = (r.find? name).or (gs.find? (·.name == name)) := by
  unfold find? extend
  rw [List.find?_append]

theorem extend_eq_self_iff : r.extend gs = r ↔ gs = [] := by
  constructor
  · intro h
    have hgrammars : r.grammars ++ gs = r.grammars := congrArg grammars h
    simpa using hgrammars
  · rintro rfl
    exact extend_nil r

theorem insert_of_contains (h : r.contains g.name = true) :
    r.insert (ε := ε) g = .error (.repeatedGrammar g.name) := by
  unfold insert
  rw [if_pos h]

theorem insert_of_not_contains (h : r.contains g.name = false) :
    r.insert (ε := ε) g = .ok (r.extend [g]) := by
  unfold insert
  rw [if_neg (by simp [h])]
  rfl

/-- The names of grammars are new to a registry and differ from each other. -/
structure Addable (r : Registry α) (gs : List (Grammar α)) : Prop where
  absent : ∀ g ∈ gs, r.contains g.name = false
  distinct : (gs.map (·.name)).Nodup

theorem addable_nil : r.Addable [] := ⟨by simp, List.nodup_nil⟩

theorem addable_cons_iff :
    r.Addable (g :: gs) ↔ r.contains g.name = false ∧ (r.extend [g]).Addable gs := by
  have habsent : ∀ h : Grammar α, (r.extend [g]).contains h.name = false ↔
      r.contains h.name = false ∧ h.name ≠ g.name := by
    intro h
    rw [← Bool.not_eq_true, contains_extend, not_or, Bool.not_eq_true]
    simp
  constructor
  · rintro ⟨hnew, hdistinct⟩
    rw [List.forall_mem_cons] at hnew
    rw [List.map_cons, List.nodup_cons] at hdistinct
    refine ⟨hnew.1, fun h hh => (habsent h).2 ⟨hnew.2 h hh, ?_⟩, hdistinct.2⟩
    intro hname
    exact hdistinct.1 (hname ▸ List.mem_map_of_mem hh)
  · rintro ⟨hfirst, hothers, hdistinct⟩
    refine ⟨List.forall_mem_cons.2 ⟨hfirst, fun h hh => ((habsent h).1 (hothers h hh)).1⟩, ?_⟩
    rw [List.map_cons, List.nodup_cons]
    refine ⟨fun hmem => ?_, hdistinct⟩
    obtain ⟨h, hh, hname⟩ := List.mem_map.1 hmem
    exact ((habsent h).1 (hothers h hh)).2 hname

theorem insertAll_of_addable (h : r.Addable gs) :
    r.insertAll (ε := ε) gs = (.ok (gs.map (·.name)), r.extend gs) := by
  induction gs generalizing r with
  | nil => rw [insertAll, List.map_nil, extend_nil]
  | cons g gs ih =>
    obtain ⟨hfirst, hothers⟩ := addable_cons_iff.1 h
    rw [insertAll, insert_of_not_contains hfirst]
    simp only [ih hothers, extend_extend]
    rfl

/-- Adding grammars ends at one whose name is taken, and keeps those before it. -/
theorem insertAll_of_contains {rest : List (Grammar α)} (h : r.Addable gs)
    (htaken : (r.extend gs).contains g.name = true) :
    r.insertAll (ε := ε) (gs ++ g :: rest) = (.error (.repeatedGrammar g.name), r.extend gs) := by
  induction gs generalizing r with
  | nil =>
    rw [extend_nil] at htaken ⊢
    rw [List.nil_append, insertAll, insert_of_contains htaken]
  | cons first gs ih =>
    obtain ⟨hfirst, hothers⟩ := addable_cons_iff.1 h
    have htaken' : ((r.extend [first]).extend gs).contains g.name = true := by
      rwa [extend_extend]
    rw [List.cons_append, insertAll, insert_of_not_contains hfirst]
    simp only [ih hothers htaken', extend_extend]
    rfl

theorem exists_taken (h : ¬r.Addable gs) :
    ∃ before g rest, gs = before ++ g :: rest ∧ r.Addable before ∧
      (r.extend before).contains g.name = true := by
  induction gs generalizing r with
  | nil => exact absurd addable_nil h
  | cons g gs ih =>
    cases hfirst : r.contains g.name with
    | true => exact ⟨[], g, gs, rfl, addable_nil, by rwa [extend_nil]⟩
    | false =>
      have hothers : ¬(r.extend [g]).Addable gs := by
        intro hothers
        exact h (addable_cons_iff.2 ⟨hfirst, hothers⟩)
      obtain ⟨before, taken, rest, rfl, hbefore, htaken⟩ := ih hothers
      rw [extend_extend] at htaken
      exact ⟨g :: before, taken, rest, rfl, addable_cons_iff.2 ⟨hfirst, hbefore⟩, htaken⟩

theorem find?_extend_of_mem (h : r.Addable gs) (hg : g ∈ gs) :
    (r.extend gs).find? g.name = some g := by
  have hold : r.find? g.name = none := contains_eq_false_iff.1 (h.absent g hg)
  rw [find?_extend, hold, Option.none_or]
  have hsome : (gs.find? (·.name == g.name)).isSome = true := by
    rw [List.find?_isSome]
    exact ⟨g, hg, beq_self_eq_true _⟩
  obtain ⟨found, hfound⟩ := Option.isSome_iff_exists.1 hsome
  have hname : found.name = g.name := by simpa using List.find?_some hfound
  rw [hfound, List.inj_on_of_nodup_map h.distinct (List.mem_of_find?_eq_some hfound) hg hname]

theorem find?_extend_of_notMem (h : name ∉ gs.map (·.name)) :
    (r.extend gs).find? name = r.find? name := by
  have hnone : gs.find? (·.name == name) = none := by
    rw [List.find?_eq_none]
    intro g hg hname
    exact h (beq_iff_eq.1 hname ▸ List.mem_map_of_mem hg)
  rw [find?_extend, hnone, Option.or_none]

end Adding

/-! ## Loads -/

section Loading

variable {ε : Type} {r : Registry Float} {read : Except (Error Float ε) (List (Grammar Float))}
  {outcome : Except (Error Float ε) (List String) × Registry Float}

def readFile (path : String) (content : FileContent) :
    Except (Error Float ε) (List (Grammar Float)) :=
  match Format.ofPath? path with
  | none => .error (.unsupportedFile path)
  | some format =>
    match content.text with
    | .error cause => .error (.unreadableFile path cause)
    | .ok text => readGrammars format text

/-- A load added exactly the grammars that were read, in their order, and answered their names; or
it failed, and the registry is what it was. -/
def IsAllOrNothing (r : Registry Float) (read : Except (Error Float ε) (List (Grammar Float))) :
    Except (Error Float ε) (List String) × Registry Float → Prop
  | (.error _, after) => after = r
  | (.ok added, after) =>
    ∃ gs, read = .ok gs ∧ added = gs.map (·.name) ∧ after.grammars = r.grammars ++ gs ∧
      (∀ g ∈ gs, r.find? g.name = none ∧ after.find? g.name = some g) ∧
      ∀ name ∉ added, after.find? name = r.find? name

/-- What a load of the grammars that were read comes to. -/
structure AddsInOrder (r : Registry Float) (read : Except (Error Float ε) (List (Grammar Float)))
    (outcome : Except (Error Float ε) (List String) × Registry Float) : Prop where
  /-- If nothing was read, nothing changes. -/
  unread : ∀ e, read = .error e → outcome = (.error e, r)
  /-- If no name is taken, all grammars are added. -/
  whole : ∀ gs, read = .ok gs → r.Addable gs → outcome = (.ok (gs.map (·.name)), r.extend gs)
  /-- The first grammar whose name is taken is refused, and those before it stay. -/
  cut : ∀ gs, read = .ok gs → ¬r.Addable gs → ∃ before g rest, gs = before ++ g :: rest ∧
    r.Addable before ∧ (r.extend before).contains g.name = true ∧
      outcome = (.error (.repeatedGrammar g.name), r.extend before)
  /-- A load is all or nothing unless a grammar after the first is refused. -/
  allOrNothing_iff : IsAllOrNothing r read outcome ↔
    ∀ before g rest, read = .ok (before ++ g :: rest) → r.Addable before →
      (r.extend before).contains g.name = true → before = []

theorem isAllOrNothing_whole {gs : List (Grammar Float)} (h : r.Addable gs) :
    IsAllOrNothing (ε := ε) r (.ok gs) (.ok (gs.map (·.name)), r.extend gs) := by
  refine ⟨gs, rfl, rfl, rfl, fun g hg => ⟨?_, find?_extend_of_mem h hg⟩, fun name hname => ?_⟩
  · exact contains_eq_false_iff.1 (h.absent g hg)
  · exact find?_extend_of_notMem hname

theorem addsInOrder_of_insertAll (hunread : ∀ e, read = .error e → outcome = (.error e, r))
    (hread : ∀ gs, read = .ok gs → outcome = r.insertAll gs) : AddsInOrder r read outcome := by
  refine ⟨hunread, fun gs hgs hadd => ?_, fun gs hgs hadd => ?_, ?_⟩
  · rw [hread gs hgs, insertAll_of_addable hadd]
  · obtain ⟨before, g, rest, rfl, hbefore, htaken⟩ := exists_taken hadd
    refine ⟨before, g, rest, rfl, hbefore, htaken, ?_⟩
    rw [hread _ hgs, insertAll_of_contains hbefore htaken]
  · constructor
    · intro hatomic before g rest hgs hbefore htaken
      rw [hread _ hgs, insertAll_of_contains hbefore htaken] at hatomic
      exact extend_eq_self_iff.1 hatomic
    · intro hfirst
      cases hgs : read with
      | error e =>
        rw [hunread e hgs]
        exact rfl
      | ok gs =>
        rw [hread gs hgs]
        by_cases hadd : r.Addable gs
        · rw [insertAll_of_addable hadd]
          exact isAllOrNothing_whole hadd
        · obtain ⟨before, g, rest, rfl, hbefore, htaken⟩ := exists_taken hadd
          rw [insertAll_of_contains hbefore htaken, hfirst before g rest hgs hbefore htaken]
          exact extend_nil r

/-- Loading a text or a file adds the grammars in their order up to the first whose name is taken.
It is all or nothing exactly if that is none of them or the first of all. -/
theorem load_addsInOrder (r : Registry Float) :
    (∀ format text, AddsInOrder (ε := ε) r (readGrammars format text) (r.load format text)) ∧
      ∀ path content, AddsInOrder (ε := ε) r (readFile path content) (r.loadFile path content) := by
  have hload : ∀ format text,
      AddsInOrder (ε := ε) r (readGrammars format text) (r.load format text) := by
    intro format text
    refine addsInOrder_of_insertAll (fun e he => ?_) (fun gs hgs => ?_)
    · rw [load, he]
    · rw [load, hgs]
  refine ⟨hload, fun path content => ?_⟩
  unfold readFile loadFile
  cases Format.ofPath? path with
  | none =>
    exact addsInOrder_of_insertAll (fun e he => by cases he; rfl) (fun gs hgs => nomatch hgs)
  | some format =>
    cases content.text with
    | error cause =>
      exact addsInOrder_of_insertAll (fun e he => by cases he; rfl) (fun gs hgs => nomatch hgs)
    | ok text => exact hload format text

/-- A text is read as grammars of these names. -/
def readsAs (format : Format) (text : String) (names : List String) : Bool :=
  match readGrammars (ε := Empty) format text with
  | .ok gs => gs.map (·.name) == names
  | .error _ => false

theorem exists_of_readsAs {format : Format} {text : String} {names : List String}
    (h : readsAs format text names = true) :
    ∃ gs, readGrammars (ε := Empty) format text = .ok gs ∧ gs.map (·.name) = names := by
  unfold readsAs at h
  split at h
  next gs hgs => exact ⟨gs, hgs, beq_iff_eq.1 h⟩
  next => cases h

/-- Two grammars of one name. -/
def sameName : String :=
  "[[\"one\", \"A\", \"A\", [[\"A\", [[\"x\", [], 1]]]]], " ++
    "[\"one\", \"A\", \"A\", [[\"A\", [[\"y\", [], 1]]]]]]"

theorem readsAs_sameName : readsAs .json sameName ["one", "one"] = true := by decide +kernel

/-- Loading them into an empty registry fails, and leaves the first of them behind. -/
theorem load_sameName :
    ∃ after, ({} : Registry Float).load (ε := Empty) .json sameName =
        (.error (.repeatedGrammar "one"), after) ∧
      ({} : Registry Float).names = [] ∧ after.names = ["one"] ∧
      ¬IsAllOrNothing {} (readGrammars (ε := Empty) .json sameName)
        (({} : Registry Float).load .json sameName) := by
  obtain ⟨gs, hgs, hnames⟩ := exists_of_readsAs readsAs_sameName
  simp only [List.map_eq_cons_iff, List.map_eq_nil_iff] at hnames
  obtain ⟨g, _, rfl, hg, h, _, rfl, hh, rfl⟩ := hnames
  have hadd : ({} : Registry Float).Addable [g] := addable_cons_iff.2 ⟨rfl, addable_nil⟩
  have htaken : (({} : Registry Float).extend [g]).contains h.name = true := by
    rw [contains_extend]
    exact .inr (by simp [hg, hh])
  have hload : ({} : Registry Float).load (ε := Empty) .json sameName =
      (.error (.repeatedGrammar h.name), ({} : Registry Float).extend [g]) := by
    rw [load, hgs]
    exact insertAll_of_contains hadd htaken
  have hname : (({} : Registry Float).extend [g]).names = ["one"] := by
    show Text.nameSet [g.name] = ["one"]
    rw [hg]
    rfl
  rw [hload, hh]
  refine ⟨_, rfl, rfl, hname, fun hatomic => ?_⟩
  exact absurd (extend_eq_self_iff.1 hatomic) (List.cons_ne_nil g [])

end Loading

end Registry

end SeededArt
