import SeededArt.Proofs.Grammar.Search
/-!
# Graphs that are recorded step by step

A graph is made by calls that register a rule or record a reference. It has exactly the recorded
references, also those to names that were never registered (`refers_ofRecordings`), and what is
reachable in it is what a path of recorded references leads to (`reachable_recorded`).

The graph of a list of rules is recorded so too, rule by rule (`ofRules_eq`): sets of names do not
keep the order in which names are added, so the arguments of a rule may be added all at once.
-/

namespace SeededArt

open Text Relation

namespace RuleGraph

variable {g : RuleGraph} {entries : List (String × List String)} {rule name x : String}
  {targets others : List String}

/-- A call on a graph. -/
inductive Recording where
  | register (rule : String)
  | reference (rule target : String)

variable {recordings : List Recording}

def record (g : RuleGraph) : Recording → RuleGraph
  | .register rule => g.register rule
  | .reference rule target => g.addReference rule target

/-- The graph that calls make from the empty one. -/
def ofRecordings (recordings : List Recording) : RuleGraph := recordings.foldl record {}

/-! ## Recorded references -/

theorem mem_references_record {recording : Recording} :
    x ∈ (g.record recording).references name ↔
      recording = .reference name x ∨ x ∈ g.references name := by
  cases recording with
  | register rule =>
    unfold record register
    rw [mem_references_refer]
    simp
  | reference rule target =>
    unfold record addReference
    rw [mem_references_refer, List.mem_singleton, Recording.reference.injEq, eq_comm (a := name),
      eq_comm (a := x)]

theorem mem_references_foldl_record :
    x ∈ (recordings.foldl record g).references name ↔
      .reference name x ∈ recordings ∨ x ∈ g.references name := by
  induction recordings generalizing g with
  | nil => simp
  | cons recording recordings ih =>
    rw [List.foldl_cons, ih, mem_references_record, List.mem_cons, eq_comm (a := recording)]
    exact or_left_comm.trans or_assoc.symm

theorem refers_ofRecordings :
    (ofRecordings recordings).Refers name x ↔ .reference name x ∈ recordings := by
  unfold Refers ofRecordings
  rw [mem_references_foldl_record]
  simp

theorem nodup_ofRecordings (recordings : List Recording) :
    ((ofRecordings recordings).entries.map (·.1)).Nodup := by
  have hfold : ∀ g : RuleGraph, (g.entries.map (·.1)).Nodup →
      ((recordings.foldl record g).entries.map (·.1)).Nodup := by
    induction recordings with
    | nil => exact fun _ hg => hg
    | cons recording recordings ih =>
      intro g hg
      refine ih (g.record recording) ?_
      cases recording with
      | register rule => exact nodup_refer hg rule []
      | reference rule target => exact nodup_refer hg rule [target]
  exact hfold {} List.nodup_nil

theorem mem_reachable_ofRecordings {start : String} :
    x ∈ (ofRecordings recordings).reachable start ↔
      ReflTransGen (fun rule target => .reference rule target ∈ recordings) start x := by
  have hrefers : (ofRecordings recordings).Refers =
      fun rule target => .reference rule target ∈ recordings := by
    funext rule target
    exact propext refers_ofRecordings
  rw [mem_reachable (nodup_ofRecordings recordings), Reaches, hrefers]

/-! ## Rules, recorded one by one -/

section Rules

variable {α : Type} {rules : List (Rule α)}

/-- The calls that record a rule: its name, and then its arguments one after another. -/
def Recording.ofRule (r : Rule α) : List Recording :=
  .register r.name :: (r.alternatives.flatMap (·.arguments)).map (.reference r.name)

/-- All entries have their targets in ascending order. -/
def IsAscending (entries : List (String × List String)) : Prop :=
  ∀ entry ∈ entries, entry.2.Pairwise Precedes

theorem pairwise_foldr_insertName (htargets : targets.Pairwise Precedes) (names : List String) :
    (names.foldr insertName targets).Pairwise Precedes := by
  induction names with
  | nil => exact htargets
  | cons name names ih => exact pairwise_insertName ih

theorem IsAscending.refer (h : IsAscending entries) (rule : String) (targets : List String) :
    IsAscending (refer rule targets entries) := by
  induction entries with
  | nil => exact List.forall_mem_singleton.2 (pairwise_nameSet targets)
  | cons entry entries ih =>
    obtain ⟨hentry, hentries⟩ := List.forall_mem_cons.1 h
    obtain ⟨name, known⟩ := entry
    rw [RuleGraph.refer]
    split
    next => exact List.forall_mem_cons.2 ⟨pairwise_foldr_insertName hentry targets, hentries⟩
    next => exact List.forall_mem_cons.2 ⟨hentry, ih hentries⟩

/-- Names that are added after others are added with them. -/
theorem refer_refer (h : IsAscending entries) :
    refer rule others (refer rule targets entries) = refer rule (targets ++ others) entries := by
  have hsame : ∀ {known : List String}, known.Pairwise Precedes →
      others.foldr insertName (targets.foldr insertName known) =
        (targets ++ others).foldr insertName known := by
    intro known hknown
    refine eq_of_pairwise_precedes
      (pairwise_foldr_insertName (pairwise_foldr_insertName hknown targets) others)
      (pairwise_foldr_insertName hknown (targets ++ others)) fun x => ?_
    simp only [mem_foldr_insertName, List.mem_append]
    exact or_left_comm.trans or_assoc.symm
  induction entries with
  | nil =>
    simp only [refer, beq_self_eq_true, if_true, nameSet, hsame List.Pairwise.nil]
  | cons entry entries ih =>
    obtain ⟨hentry, hentries⟩ := List.forall_mem_cons.1 h
    obtain ⟨name, known⟩ := entry
    by_cases hname : name = rule
    · simp only [refer, hname, beq_self_eq_true, if_true, hsame hentry]
    · simp only [refer, beq_eq_false_iff_ne.2 hname, Bool.false_eq_true, if_false, ih hentries]

theorem foldl_reference (h : IsAscending entries) :
    (others.map (.reference rule)).foldl record ⟨refer rule targets entries⟩ =
      ⟨refer rule (targets ++ others) entries⟩ := by
  induction others generalizing targets with
  | nil => rw [List.append_nil]; rfl
  | cons target others ih =>
    rw [List.map_cons, List.foldl_cons, record, addReference, refer_refer h, ih,
      List.append_assoc, List.singleton_append]

/-- A graph of rules is recorded rule by rule. -/
theorem ofRules_eq (rules : List (Rule α)) :
    ofRules rules = ofRecordings (rules.flatMap Recording.ofRule) := by
  have hfold : ∀ g : RuleGraph, IsAscending g.entries →
      rules.foldl (fun g r => ⟨refer r.name (r.alternatives.flatMap (·.arguments)) g.entries⟩) g =
        (rules.flatMap Recording.ofRule).foldl record g := by
    induction rules with
    | nil => exact fun _ _ => rfl
    | cons r rules ih =>
      intro g hg
      rw [List.foldl_cons, ih _ (hg.refer _ _), List.flatMap_cons, List.foldl_append,
        Recording.ofRule, List.foldl_cons, record, register, foldl_reference hg, List.nil_append]
  exact hfold {} (List.forall_mem_nil _)

theorem map_entries_ofRules (hdistinct : (rules.map (·.name)).Nodup) :
    (ofRules rules).entries.map (·.1) = rules.map (·.name) := by
  have hfold : ∀ g : RuleGraph, (g.entries.map (·.1) ++ rules.map (·.name)).Nodup →
      (rules.foldl (fun g r =>
        ⟨refer r.name (r.alternatives.flatMap (·.arguments)) g.entries⟩) g).entries.map (·.1) =
          g.entries.map (·.1) ++ rules.map (·.name) := by
    clear hdistinct
    induction rules with
    | nil => exact fun g _ => (List.append_nil _).symm
    | cons r rules ih =>
      intro g hg
      rw [List.map_cons, List.append_cons] at hg
      obtain ⟨-, -, hapart⟩ := List.nodup_append.1 (List.nodup_append.1 hg).1
      have hnew : r.name ∉ g.entries.map (·.1) := fun hmem =>
        hapart _ hmem _ (List.mem_singleton_self r.name) rfl
      have hentries : (refer r.name (r.alternatives.flatMap (·.arguments)) g.entries).map (·.1) =
          g.entries.map (·.1) ++ [r.name] := by
        rw [map_refer, if_neg hnew]
      rw [List.foldl_cons, ih _ (hentries ▸ hg), hentries, List.append_assoc, List.singleton_append,
        List.map_cons]
  exact hfold {} hdistinct

end Rules

/-- A search of a recorded graph comes to an end, and what it has visited then is what a path of
recorded references leads to. The graph of a grammar is recorded so; its nodes are the rules, and it
leads from a rule to the arguments of all alternatives of the rule. -/
theorem reachable_recorded {α : Type} [Arithmetic α] :
    (∀ (recordings : List Recording) (start : String),
        Search.run (ofRecordings recordings) ((ofRecordings recordings).referenceCount + 1)
            (.ofStart start) = ⟨(ofRecordings recordings).reachable start, []⟩ ∧
          ((ofRecordings recordings).reachable start).Pairwise Precedes ∧
          ∀ x, x ∈ (ofRecordings recordings).reachable start ↔
            ReflTransGen (fun rule target => .reference rule target ∈ recordings) start x) ∧
      ∀ g : Grammar α, g.graph = ofRecordings (g.rules.flatMap Recording.ofRule) ∧
        g.graph.entries.map (·.1) = g.ruleNames ∧
        ∀ rule target, target ∈ g.graph.references rule ↔
          ∃ r ∈ g.rules, r.name = rule ∧ ∃ a ∈ r.alternatives, target ∈ a.arguments := by
  refine ⟨fun recordings start => ⟨?_, ?_, ?_⟩, fun g => ⟨?_, ?_, ?_⟩⟩
  · exact Search.run_ofStart (nodup_ofRecordings recordings) start
  · exact pairwise_visit List.Pairwise.nil
  · exact fun x => mem_reachable_ofRecordings
  · exact ofRules_eq g.rules
  · exact map_entries_ofRules g.distinct
  · exact fun rule target => mem_references_ofRules

end RuleGraph

end SeededArt
