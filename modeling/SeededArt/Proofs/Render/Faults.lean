import SeededArt.Proofs.Render.Compiling
/-!
# The first fault of an expression

A node can be faulty by itself: its function is not known, or takes another number of arguments, or
has no value of the kind that the place of the node needs, a colour at the root and a scalar inside
(`nodeFault?`). Compiling fails with the fault of the first faulty node in the order of the text, a
call before its arguments (`Program.faultOf?_ofExpr`). If no node is faulty, the program is the
expression again, with functions for their names and numbers for their numerals
(`Program.expr_of_ofExpr`). Both together say what becomes of every text that reads as an
expression (`compile_exact`).
-/

namespace SeededArt

namespace Expr

variable {ν : Type}

/-- An expression and those inside it, a call before its arguments. -/
def nodes : Expr ν → List (Expr ν)
  | number value => [number value]
  | call function arguments => call function arguments :: arguments.flatMap fun e => e.nodes

/-- The expressions inside an expression. -/
def parts : Expr ν → List (Expr ν)
  | number _ => []
  | call _ arguments => arguments.flatMap nodes

theorem nodes_eq_cons_parts (e : Expr ν) : e.nodes = e :: e.parts := by
  cases e with
  | number => rw [nodes, parts]
  | call => rw [nodes, parts]

theorem mem_calls_of_mem_nodes {e : Expr ν} {name : String} {arguments : List (Expr ν)}
    (h : call name arguments ∈ e.nodes) : name ∈ e.calls := by
  induction e using nodes.induct with
  | case1 value =>
    rw [nodes, List.mem_singleton] at h
    cases h
  | case2 function others ih =>
    rw [nodes, List.mem_cons, List.mem_flatMap] at h
    rw [mem_calls_call]
    rcases h with h | ⟨e, he, h⟩
    · exact .inl (Expr.call.inj h).1
    · exact .inr ⟨e, he, ih e he h⟩

end Expr

namespace Render

open Decimal

/-! ## Names of functions -/

def Function.name (f : Function) : String :=
  ((table.find? fun p => p.2 = f).map Prod.fst).getD ""

theorem Function.ofName?_eq_some_iff {name : String} {f : Function} :
    ofName? name = some f ↔ name = f.name := by
  constructor
  · intro h
    have hall : ∀ p ∈ table, p.1 = p.2.name := by decide
    exact hall _ (mem_table_of_ofName? h)
  · rintro rfl
    cases f <;> rfl

/-! ## Faulty nodes -/

section Faults

/-- Where a node stands. -/
inductive NodePlace where
  /-- A colour is needed. -/
  | root
  /-- A scalar is needed. -/
  | inside
deriving DecidableEq

/-- What is wrong with the kind of value that a function has, if anything is. -/
def NodePlace.fault? (name : String) (f : Function) : NodePlace → Option SoftwareFault
  | root => if f = .colour then none else some (.scalarAtRoot name)
  | inside => if f = .colour then some (.colourInside name) else none

/-- What is wrong with a call, whatever its arguments are: that the function is not known comes
first, then that it takes another number of arguments, then the kind of its value. -/
def callFault? (place : NodePlace) (name : String) (found : Nat) : Option SoftwareFault :=
  match Function.ofName? name with
  | none => some (.unknownFunction name)
  | some f =>
    if found = f.arity then place.fault? name f else some (.arity name f.arity found)

variable {ν : Type} {e : Expr ν} {place : NodePlace} {name : String} {found : Nat} {f : Function}
  {fault : SoftwareFault}

/-- What is wrong with a node by itself. -/
def nodeFault? (place : NodePlace) : Expr ν → Option SoftwareFault
  | .number _ => if place = .root then some .numberAtRoot else none
  | .call name arguments => callFault? place name arguments.length

/-- All nodes with their places, in the order of the text. -/
def placedNodes (e : Expr ν) : List (NodePlace × Expr ν) :=
  (.root, e) :: e.parts.map fun part => (.inside, part)

/-- The first fault of all nodes. -/
def firstFault? (e : Expr ν) : Option SoftwareFault :=
  (placedNodes e).findSome? fun p => nodeFault? p.1 p.2

theorem firstFault?_eq (e : Expr ν) :
    firstFault? e = (nodeFault? .root e).or (e.parts.findSome? (nodeFault? .inside)) := by
  unfold firstFault? placedNodes
  rw [List.findSome?_cons, List.findSome?_map]
  cases nodeFault? .root e <;> rfl

theorem callFault?_of_lookup_eq_ok (h : Node.lookup name found = .ok f) :
    callFault? place name found = place.fault? name f := by
  obtain ⟨hname, hfound⟩ := Node.lookup_eq_ok_iff.1 h
  simp only [callFault?, hname, if_pos hfound]

theorem callFault?_of_lookup_eq_error (h : Node.lookup name found = .error fault) :
    callFault? place name found = some fault := by
  cases hname : Function.ofName? name with
  | none =>
    simp only [Node.lookup, callFault?, hname] at h ⊢
    exact congrArg some (Except.error.inj h)
  | some f =>
    simp only [Node.lookup, callFault?, hname] at h ⊢
    split at h
    next => cases h
    next hfound =>
      rw [if_neg (Ne.symm hfound)]
      exact congrArg some (Except.error.inj h)

theorem callFault?_eq_none_iff :
    callFault? place name found = none ↔
      ∃ f, Function.ofName? name = some f ∧ found = f.arity ∧ place.fault? name f = none := by
  cases hlookup : Node.lookup name found with
  | error fault =>
    rw [callFault?_of_lookup_eq_error hlookup]
    constructor
    · intro h
      cases h
    · rintro ⟨f, hname, hfound, -⟩
      rw [Node.lookup_of_ofName? hname hfound] at hlookup
      cases hlookup
  | ok f =>
    rw [callFault?_of_lookup_eq_ok hlookup]
    obtain ⟨hname, hfound⟩ := Node.lookup_eq_ok_iff.1 hlookup
    simp [hname, hfound]

theorem of_callFault?_eq_unknownFunction {unknown : String}
    (h : callFault? place name found = some (.unknownFunction unknown)) :
    unknown = name ∧ Function.ofName? name = none := by
  unfold callFault? NodePlace.fault? at h
  grind

theorem NodePlace.fault?_root_eq_none_iff :
    NodePlace.root.fault? name f = none ↔ f = .colour := by
  simp [NodePlace.fault?]

theorem NodePlace.fault?_inside_eq_none_iff :
    NodePlace.inside.fault? name f = none ↔ f ≠ .colour := by
  simp [NodePlace.fault?]

theorem nodeFault?_root_eq_none_iff :
    nodeFault? .root e = none ↔ ∃ red green blue, e = .call "E" [red, green, blue] := by
  cases e with
  | number => simp [nodeFault?]
  | call name arguments =>
    rw [nodeFault?, callFault?_eq_none_iff]
    simp only [NodePlace.fault?_root_eq_none_iff, Expr.call.injEq]
    constructor
    · rintro ⟨f, hname, harity, rfl⟩
      obtain ⟨red, green, blue, rfl⟩ := List.length_eq_three.1 harity
      exact ⟨red, green, blue, Function.ofName?_eq_colour_iff.1 hname, rfl⟩
    · rintro ⟨red, green, blue, rfl, rfl⟩
      exact ⟨.colour, rfl, rfl, rfl⟩

/-- A number, or a call of a function with a scalar value on as many arguments as it takes. -/
inductive IsScalarNode : Expr ν → Prop
  | number (value : ν) : IsScalarNode (.number value)
  | call {name : String} {f : Function} {arguments : List (Expr ν)} :
      Function.ofName? name = some f → name ≠ "E" → arguments.length = f.arity →
      IsScalarNode (.call name arguments)

theorem nodeFault?_inside_eq_none_iff : nodeFault? .inside e = none ↔ IsScalarNode e := by
  cases e with
  | number value => exact ⟨fun _ => .number value, fun _ => rfl⟩
  | call name arguments =>
    rw [nodeFault?, callFault?_eq_none_iff]
    simp only [NodePlace.fault?_inside_eq_none_iff]
    constructor
    · rintro ⟨f, hname, harity, hcolour⟩
      refine .call hname (fun hE => hcolour ?_) harity
      rw [Function.ofName?_eq_colour_iff.2 hE, Option.some.injEq] at hname
      exact hname.symm
    · rintro (_ | ⟨hname, hne, harity⟩)
      exact ⟨_, hname, harity, Function.ne_colour_of_ofName? hname hne⟩

/-- No node has a fault exactly if the root joins three channels and all others are scalar. -/
theorem firstFault?_eq_none_iff :
    firstFault? e = none ↔ (∃ red green blue, e = .call "E" [red, green, blue]) ∧
      ∀ part ∈ e.parts, IsScalarNode part := by
  rw [firstFault?_eq, Option.or_eq_none_iff, nodeFault?_root_eq_none_iff,
    List.findSome?_eq_none_iff]
  simp only [nodeFault?_inside_eq_none_iff]

theorem mem_calls_of_firstFault? (h : firstFault? e = some (.unknownFunction name)) :
    Function.ofName? name = none ∧ name ∈ e.calls := by
  obtain ⟨⟨place, node⟩, hmem, hfault⟩ := List.exists_of_findSome?_eq_some h
  have hnode : node ∈ e.nodes := by
    unfold placedNodes at hmem
    rw [List.mem_cons, List.mem_map] at hmem
    rw [Expr.nodes_eq_cons_parts, List.mem_cons]
    rcases hmem with hmem | ⟨part, hpart, hmem⟩
    · exact .inl (Prod.mk.inj hmem).2
    · exact .inr ((Prod.mk.inj hmem).2 ▸ hpart)
  cases node with
  | number => cases place <;> cases hfault
  | call function arguments =>
    obtain ⟨rfl, hunknown⟩ := of_callFault?_eq_unknownFunction hfault
    exact ⟨hunknown, Expr.mem_calls_of_mem_nodes hnode⟩

end Faults

/-! ## Compiling -/

section Compiling

variable {ν : Type} [Scalar ν]

theorem findSome?_flatMap {β γ δ : Type} (p : γ → Option δ) (g : β → List γ) (items : List β) :
    (items.flatMap g).findSome? p = items.findSome? fun i => (g i).findSome? p := by
  induction items with
  | nil => rfl
  | cons i items ih =>
    rw [List.flatMap_cons, List.findSome?_append, ih, List.findSome?_cons]
    cases (g i).findSome? p <;> rfl

theorem findSome?_congr {β γ : Type} {p q : β → Option γ} {items : List β}
    (h : ∀ i ∈ items, p i = q i) : items.findSome? p = items.findSome? q := by
  induction items with
  | nil => rfl
  | cons i items ih =>
    obtain ⟨hi, hitems⟩ := List.forall_mem_cons.1 h
    rw [List.findSome?_cons, List.findSome?_cons, hi, ih hitems]

/-- A tree fails with the first fault of the nodes of its expression. -/
theorem Node.faultOf?_ofExpr (e : Expr Numeral) :
    faultOf? (Node.ofExpr e : Except _ (Node ν)) = e.nodes.findSome? (nodeFault? .inside) := by
  induction e using Expr.nodes.induct with
  | case1 value =>
    rw [Node.ofExpr, Expr.nodes]
    rfl
  | case2 name arguments ih =>
    rw [Node.ofExpr, List.mapM_subtype (g := Node.ofExpr) fun _ _ => rfl, List.unattach_attach,
      Expr.nodes, List.findSome?_cons, nodeFault?, findSome?_flatMap, ← findSome?_congr ih,
      ← faultOf?_mapM]
    cases hlookup : Node.lookup name arguments.length with
    | error fault =>
      rw [callFault?_of_lookup_eq_error hlookup]
      rfl
    | ok f =>
      rw [callFault?_of_lookup_eq_ok hlookup]
      by_cases hcolour : f = .colour
      · subst hcolour
        rfl
      · simp only [NodePlace.fault?, if_neg hcolour, bind, Except.bind]
        cases arguments.mapM (Node.ofExpr (ν := ν)) <;> rfl

theorem Program.faultOf?_ofExpr (e : Expr Numeral) :
    faultOf? (Program.ofExpr e : Except _ (Program ν)) = firstFault? e := by
  rw [firstFault?_eq]
  cases e with
  | number => rfl
  | call name arguments =>
    rw [Program.ofExpr_eq_mapM, nodeFault?, Expr.parts, findSome?_flatMap,
      ← findSome?_congr fun e _ => Node.faultOf?_ofExpr (ν := ν) e, ← faultOf?_mapM]
    cases hlookup : Node.lookup name arguments.length with
    | error fault =>
      rw [callFault?_of_lookup_eq_error hlookup]
      rfl
    | ok f =>
      rw [callFault?_of_lookup_eq_ok hlookup]
      by_cases hcolour : f = .colour
      · subst hcolour
        cases hnodes : arguments.mapM (Node.ofExpr (ν := ν)) with
        | error fault => rfl
        | ok nodes =>
          -- a call that is found has three arguments, so it has three channels
          have harity : nodes.length = 3 :=
            (mapM_eq_ok_iff.1 hnodes).length_eq.symm.trans (Node.lookup_eq_ok_iff.1 hlookup).2
          obtain ⟨red, green, blue, rfl⟩ := List.length_eq_three.1 harity
          rfl
      · simp only [NodePlace.fault?, if_neg hcolour, Option.some_or]
        simp only [bind, Except.bind, if_pos hcolour]
        rfl

theorem Program.compile_of_parse {text : String} {e : Expr Numeral} (h : Expr.parse text = .ok e) :
    (Program.compile text : Except _ (Program ν)) = Program.ofExpr e := by
  unfold Program.compile
  rw [h]

theorem Program.mem_calls_of_compile {text name : String} {e : Expr Numeral}
    (hparse : Expr.parse text = .ok e)
    (h : (Program.compile text : Except _ (Program ν)) = .error (.unknownFunction name)) :
    Function.ofName? name = none ∧ name ∈ e.calls := by
  rw [compile_of_parse hparse, ← faultOf?_eq_some_iff, faultOf?_ofExpr] at h
  exact mem_calls_of_firstFault? h

def Node.expr : Node ν → Expr ν
  | .constant value => .number value
  | .call f arguments => .call f.name (arguments.map fun n => n.expr)

def Program.expr (p : Program ν) : Expr ν := .call "E" [p.red.expr, p.green.expr, p.blue.expr]

/-- A tree is its expression again. -/
theorem Node.expr_of_ofExpr {e : Expr Numeral} {node : Node ν} (h : Node.ofExpr e = .ok node) :
    node.expr = e.map Scalar.ofNumeral := by
  refine Node.ofExpr_induction (P := fun e n => n.expr = e.map Scalar.ofNumeral)
    (fun value => ?_) (fun hname _ _ hnodes => ?_) h
  · rw [Node.expr, Expr.map]
  · rw [Node.expr, Expr.map, Function.ofName?_eq_some_iff.1 hname, map_eq_map_of_forall₂ hnodes]

theorem Program.expr_of_ofExpr {e : Expr Numeral} {p : Program ν} (h : Program.ofExpr e = .ok p) :
    p.expr = e.map Scalar.ofNumeral := by
  obtain ⟨red, green, blue, rfl, hred, hgreen, hblue⟩ := Program.ofExpr_eq_ok_iff.1 h
  rw [Program.expr, Expr.map, Node.expr_of_ofExpr hred, Node.expr_of_ofExpr hgreen,
    Node.expr_of_ofExpr hblue]
  rfl

/-- A text that reads as an expression compiles exactly if its root joins three channels and every
expression inside is a number or a call of a known function, other than `E`, on as many arguments
as it takes. If not, compiling fails with the fault of the first faulty node, a call before its
arguments and these from left to right. A program is the expression again, node for node. -/
theorem compile_exact {text : String} {e : Expr Numeral} (h : Expr.parse text = .ok e) :
    ((∃ p : Program ν, Program.compile text = .ok p) ↔
        (∃ red green blue, e = .call "E" [red, green, blue]) ∧
          ∀ part ∈ e.parts, IsScalarNode part) ∧
      (∀ fault, (Program.compile text : Except _ (Program ν)) = .error fault ↔
        ∃ before place node after, placedNodes e = before ++ (place, node) :: after ∧
          (∀ p ∈ before, nodeFault? p.1 p.2 = none) ∧ nodeFault? place node = some fault) ∧
      ∀ p : Program ν, Program.compile text = .ok p → p.expr = e.map Scalar.ofNumeral := by
  rw [Program.compile_of_parse h]
  refine ⟨?_, fun fault => ?_, fun p => Program.expr_of_ofExpr⟩
  · rw [← faultOf?_eq_none_iff, Program.faultOf?_ofExpr, firstFault?_eq_none_iff]
  · rw [← faultOf?_eq_some_iff, Program.faultOf?_ofExpr, firstFault?, List.findSome?_eq_some_iff]
    constructor
    · rintro ⟨before, ⟨place, node⟩, after, hnodes, hfault, hbefore⟩
      exact ⟨before, place, node, after, hnodes, hbefore, hfault⟩
    · rintro ⟨before, place, node, after, hnodes, hbefore, hfault⟩
      exact ⟨before, ⟨place, node⟩, after, hnodes, hfault, hbefore⟩

/-- A wrong number of arguments, an unknown function and a colour inside. -/
def threeFaults : Expr Numeral :=
  .call "E"
    [.call "add" [.number (.finite false 5 (-1))], .call "noise" [],
      .call "E"
        [.number (.finite false 1 0), .number (.finite false 2 0), .number (.finite false 3 0)]]

/-- The first of them counts. -/
theorem compile_exact_threeFaults :
    Expr.parse "E(add(0.5), noise(), E(1, 2, 3))" = .ok threeFaults ∧
      (Program.compile "E(add(0.5), noise(), E(1, 2, 3))" : Except _ (Program Float32)) =
        .error (.arity "add" 2 1) ∧
      ∃ p : Program Float32, Program.compile "E(add(get_x(), 1), 1, get_y())" = .ok p := by
  have hfaulty : Expr.parse "E(add(0.5), noise(), E(1, 2, 3))" = .ok threeFaults := by
    decide +kernel
  have hplaced : ∃ after, placedNodes threeFaults = [(.root, threeFaults)] ++
      (.inside, .call "add" [.number (.finite false 5 (-1))]) :: after := by
    simp [placedNodes, threeFaults, Expr.parts, Expr.nodes]
  have hparse : Expr.parse "E(add(get_x(), 1), 1, get_y())" = .ok (.call "E"
      [.call "add" [.call "get_x" [], .number (.finite false 1 0)], .number (.finite false 1 0),
        .call "get_y" []]) := by
    decide +kernel
  have hadd {arguments : List (Expr Numeral)} (h : arguments.length = 2) :
      IsScalarNode (.call "add" arguments) := .call (f := .add) rfl (by decide) h
  have hx : IsScalarNode (.call "get_x" [] : Expr Numeral) := .call (f := .x) rfl (by decide) rfl
  have hy : IsScalarNode (.call "get_y" [] : Expr Numeral) := .call (f := .y) rfl (by decide) rfl
  obtain ⟨after, hafter⟩ := hplaced
  refine ⟨hfaulty, ((compile_exact hfaulty).2.1 _).2 ⟨_, _, _, after, hafter, ?_, rfl⟩,
    (compile_exact hparse).1.2 ⟨⟨_, _, _, rfl⟩, ?_⟩⟩
  · rw [List.forall_mem_singleton]
    exact nodeFault?_root_eq_none_iff.2 ⟨_, _, _, rfl⟩
  · simp only [Expr.parts, Expr.nodes, List.flatMap_cons, List.flatMap_nil, List.cons_append,
      List.nil_append, List.append_nil, List.forall_mem_cons]
    exact ⟨hadd rfl, hx, .number _, .number _, hy, List.forall_mem_nil _⟩

end Compiling

end Render

end SeededArt
