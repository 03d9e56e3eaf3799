import SeededArt.Proofs.Grammar.Reordering
import SeededArt.Proofs.Registry.Standard
/-!
# Registries after any calls

A registry is used by calls that add a grammar, the grammars of a text or those of a file
(`RegistryCall`). The caller may go on after a call that failed, also after a load that added some
grammars before it met one whose name was taken. Every grammar that is tried in such a history is
kept if its name is new. So a name finds the first grammar that was tried under it
(`Registry.find?_run`), what it finds never changes (`Registry.find?_run_of_find?`), and names stay
distinct (`Registry.HasDistinctNames.run`).
-/

namespace SeededArt

open Document Text

/-! ## Calls -/

/-- A call that may add grammars to a registry. -/
inductive RegistryCall where
  | insert (g : Grammar Float)
  | load (format : Format) (text : String)
  | loadFile (path : String) (content : FileContent)

/-- The grammars that a call is about, or why there are none. -/
def RegistryCall.grammars {ε : Type} : RegistryCall → Except (Error Float ε) (List (Grammar Float))
  | insert g => .ok [g]
  | load format text => readGrammars format text
  | loadFile path content => Registry.readFile path content

namespace Registry

variable {α ε : Type} [Arithmetic α]

/-- Makes a call, and answers the names of the grammars that it added. -/
def call (r : Registry Float) : RegistryCall → Except (Error Float ε) (List String) × Registry Float
  | .insert g =>
    match r.insert g with
    | .ok after => (.ok [g.name], after)
    | .error e => (.error e, r)
  | .load format text => r.load format text
  | .loadFile path content => r.loadFile path content

/-- The registry after calls, whether they succeed or not. -/
def run (ε : Type) (r : Registry Float) (calls : List RegistryCall) : Registry Float :=
  calls.foldl (fun r c => (r.call (ε := ε) c).2) r

/-- Every call reads grammars and adds them one by one. -/
theorem call_eq (r : Registry Float) (c : RegistryCall) :
    r.call (ε := ε) c =
      match c.grammars with
      | .error e => (.error e, r)
      | .ok gs => r.insertAll gs := by
  cases c with
  | insert g =>
    unfold call RegistryCall.grammars insertAll
    dsimp only
    cases r.insert (ε := ε) g <;> rfl
  | load format text => rfl
  | loadFile path content =>
    unfold call RegistryCall.grammars loadFile readFile
    dsimp only
    cases Format.ofPath? path with
    | none => rfl
    | some format => cases content.text <;> rfl

/-! ## What is tried -/

/-- The grammars that are tried when grammars are added one by one: those up to the first whose name
is taken, and that one. -/
def tried (r : Registry α) : List (Grammar α) → List (Grammar α)
  | [] => []
  | g :: rest => if r.contains g.name then [g] else g :: (r.extend [g]).tried rest

def triedBy (ε : Type) (r : Registry Float) (c : RegistryCall) : List (Grammar Float) :=
  match c.grammars (ε := ε) with
  | .error _ => []
  | .ok gs => r.tried gs

def triedByAll (ε : Type) (r : Registry Float) : List RegistryCall → List (Grammar Float)
  | [] => []
  | c :: calls => r.triedBy ε c ++ (r.call (ε := ε) c).2.triedByAll ε calls

section Finding

variable {g : Grammar α} {name : String}

theorem find?_or_of_contains {r : Registry α} (h : r.contains g.name = true) (name : String) :
    (r.find? name).or ([g].find? (·.name == name)) = r.find? name := by
  by_cases hname : g.name = name
  · obtain ⟨found, hfound⟩ := Option.isSome_iff_exists.1 h
    rw [← hname, hfound, Option.some_or]
  · rw [List.find?_singleton, if_neg (by simpa using hname), Option.or_none]

theorem insertAll_cons_of_not_contains {r : Registry α} (h : r.contains g.name = false)
    (gs : List (Grammar α)) :
    r.insertAll (ε := ε) (g :: gs) =
      (((r.extend [g]).insertAll gs).1.map (g.name :: ·),
        ((r.extend [g]).insertAll (ε := ε) gs).2) := by
  rw [insertAll, insert_of_not_contains h]

/-- A name finds the grammar that it found before, or else the first one that was tried. -/
theorem find?_insertAll (r : Registry α) (gs : List (Grammar α)) (name : String) :
    (r.insertAll (ε := ε) gs).2.find? name =
      (r.find? name).or ((r.tried gs).find? (·.name == name)) := by
  induction gs generalizing r with
  | nil => rw [insertAll, tried, List.find?_nil, Option.or_none]
  | cons g gs ih =>
    unfold tried
    cases hcontains : r.contains g.name with
    | true =>
      rw [insertAll, insert_of_contains hcontains, if_pos rfl, find?_or_of_contains hcontains]
    | false =>
      rw [insertAll_cons_of_not_contains hcontains, if_neg Bool.false_ne_true, ih, find?_extend,
        Option.or_assoc, ← List.find?_append]
      rfl

variable (r : Registry Float)

theorem find?_call (c : RegistryCall) (name : String) :
    (r.call (ε := ε) c).2.find? name =
      (r.find? name).or ((r.triedBy ε c).find? (·.name == name)) := by
  rw [call_eq, triedBy]
  cases c.grammars (ε := ε) with
  | error => simp
  | ok gs => exact r.find?_insertAll gs name

theorem find?_run (calls : List RegistryCall) (name : String) :
    (r.run ε calls).find? name =
      (r.find? name).or ((r.triedByAll ε calls).find? (·.name == name)) := by
  induction calls generalizing r with
  | nil => rw [triedByAll, List.find?_nil, Option.or_none]; rfl
  | cons c calls ih =>
    show ((r.call (ε := ε) c).2.run ε calls).find? name = _
    rw [ih, find?_call, Option.or_assoc, ← List.find?_append]
    rfl

theorem find?_run_of_find? {r : Registry Float} {g : Grammar Float} (h : r.find? name = some g)
    (calls : List RegistryCall) : (r.run ε calls).find? name = some g := by
  rw [find?_run, h, Option.some_or]

end Finding

/-! ## Names -/

section Names

variable {r : Registry α} {gs : List (Grammar α)} {name : String}

def HasDistinctNames (r : Registry α) : Prop := (r.grammars.map (·.name)).Nodup

theorem hasDistinctNames_nil : ({} : Registry α).HasDistinctNames := List.nodup_nil

theorem HasDistinctNames.extend (h : r.HasDistinctNames) (hadd : r.Addable gs) :
    (r.extend gs).HasDistinctNames := by
  unfold HasDistinctNames Registry.extend
  rw [List.map_append, List.nodup_append]
  refine ⟨h, hadd.distinct, fun a ha b hb => ?_⟩
  obtain ⟨g, hg, rfl⟩ := List.mem_map.1 hb
  rintro rfl
  have habsent := hadd.absent g hg
  rw [contains_iff.2 ha] at habsent
  cases habsent

theorem HasDistinctNames.insertAll (h : r.HasDistinctNames) (gs : List (Grammar α)) :
    (r.insertAll (ε := ε) gs).2.HasDistinctNames := by
  by_cases hadd : r.Addable gs
  · rw [insertAll_of_addable hadd]
    exact h.extend hadd
  · obtain ⟨before, g, rest, rfl, hbefore, htaken⟩ := exists_taken hadd
    rw [insertAll_of_contains hbefore htaken]
    exact h.extend hbefore

theorem HasDistinctNames.call {r : Registry Float} (h : r.HasDistinctNames) (c : RegistryCall) :
    (r.call (ε := ε) c).2.HasDistinctNames := by
  rw [call_eq]
  cases c.grammars (ε := ε) with
  | error => exact h
  | ok gs => exact h.insertAll gs

theorem HasDistinctNames.run {r : Registry Float} (h : r.HasDistinctNames)
    (calls : List RegistryCall) : (r.run ε calls).HasDistinctNames := by
  induction calls generalizing r with
  | nil => exact h
  | cons c calls ih => exact ih (h.call c)

theorem mem_names : name ∈ r.names ↔ r.contains name = true := by
  rw [names, mem_nameSet, contains_iff]

theorem nodup_names (r : Registry α) : r.names.Nodup := by
  refine (pairwise_nameSet _).imp ?_
  rintro x _ hx rfl
  exact Precedes.irrefl x hx

theorem HasDistinctNames.length_names (h : r.HasDistinctNames) : r.names.length = r.size := by
  have hperm : r.names.Perm (r.grammars.map (·.name)) :=
    (List.perm_ext_iff_of_nodup r.nodup_names h).2 fun x => by rw [mem_names, contains_iff]
  rw [hperm.length_eq, List.length_map, size]

end Names

end Registry

end SeededArt
