import SeededArt.Yaml.Tokens
/-!
# The documents of a YAML text

Tokens form documents, and a document is a tree of scalars, sequences and mappings. An anchor gives
a node a slot, by which an alias refers to it. Where a text is not well formed the tree ends with
`Node.broken`, so that all that precedes the fault can still be read in order.
-/

namespace SeededArt.Yaml

/-- A node of a document. -/
inductive Node where
  | scalar (slot : Option Nat) (tag : Option Tag) (style : Style) (text : String)
  | sequence (slot : Option Nat) (tag : Option Tag) (items : List Node)
  | mapping (slot : Option Nat) (tag : Option Tag) (entries : List (Node × Node))
  | alias (slot : Nat)
  /-- There is no node here, and nothing after it. -/
  | broken

def Node.isAlias : Node → Bool
  | .alias _ => true
  | _ => false

/-- A document: the tree of its nodes. -/
structure Tree where
  root : Node
  /-- Whether the text is not well formed after the root, before the next document. -/
  faulty : Bool
  /-- The number of scalars and aliases, and of starts and ends of collections. -/
  size : Nat

/-- How far tokens are read within a document. -/
structure TreeReader where
  tokens : List Token
  /-- The expansions of the handles that directives declare. -/
  handles : List (String × Tag) := []
  /-- The slots of the anchors so far, each name once. -/
  anchors : List (String × Nat) := []
  size : Nat := 0
  /-- Whether the text turned out not to be well formed. -/
  stopped : Bool := false

/-- A step of reading a tree. -/
abbrev TreeStep := StateM TreeReader

namespace TreeStep

/-- Gives up reading. -/
def stop : TreeStep Unit := modify fun r => { r with stopped := true }

/-- Gives up reading where a node is missing. -/
def fail : TreeStep Node := do
  stop
  return .broken

def isStopped : TreeStep Bool := return (← get).stopped

/-- The next token, unless there is none. -/
def peek : TreeStep (Option Token) := do
  let r ← get
  match r.tokens with
  | t :: _ => if r.stopped then return none else return some t
  | [] =>
    stop
    return none

def skip : TreeStep Unit := modify fun r => { r with tokens := r.tokens.drop 1 }

/-- Passes over a token and answers the next. -/
def skipPeek : TreeStep (Option Token) := do
  skip
  peek

/-- Counts a part of the document. -/
def count : TreeStep Unit := modify fun r => { r with size := r.size + 1 }

/-- The slot of a node with the given anchor: the number of different anchors before it. -/
def slotOf (anchor : Option String) : TreeStep (Option Nat) := do
  match anchor with
  | none => return none
  | some name =>
    let r ← get
    let slot := r.anchors.length
    set { r with anchors := (name, slot) :: r.anchors.filter (·.1 != name) }
    return some slot

def aliasOf (name : String) : TreeStep Node := do
  match (← get).anchors.lookup name with
  | some slot =>
    count
    return .alias slot
  | none => fail

def emptyScalar (anchor : Option String := none) (tag : Option Tag := none) : TreeStep Node := do
  let slot ← slotOf anchor
  count
  return .scalar slot tag .plain ""

/-- The tag that a handle and a suffix stand for; `none` if the handle is not declared. -/
def expandTag? (handles : List (String × Tag)) (handle : String) (suffix : Tag) : Option Tag :=
  if handle = "" then some suffix
  else (handles.lookup handle).map (· ++ suffix)

/-- The anchor and the tag before a node, in either order. -/
def properties : TreeStep (Option String × Option Tag) := do
  let tagOf (handle : String) (suffix : Tag) : TreeStep (Option Tag) := do
    match expandTag? (← get).handles handle suffix with
    | some tag => return some tag
    | none =>
      stop
      return none
  match ← peek with
  | some (.anchor name) =>
    match ← skipPeek with
    | some (.tag handle suffix) =>
      skip
      return (some name, ← tagOf handle suffix)
    | _ => return (some name, none)
  | some (.tag handle suffix) =>
    match ← skipPeek with
    | some (.anchor name) =>
      skip
      return (some name, ← tagOf handle suffix)
    | _ => return (none, ← tagOf handle suffix)
  | _ => return (none, none)

/-- Whether a token ends a key or value of a block mapping. -/
def endsBlockPart : Token → Bool
  | .key | .value | .blockEnd => true
  | _ => false

/-- Whether a token ends an entry of a block sequence. -/
def endsBlockEntry : Token → Bool
  | .blockEntry | .blockEnd => true
  | _ => false

/-- Whether a token ends an entry of a block sequence that is not indented. -/
def endsPlainEntry (t : Token) : Bool := t == .blockEntry || endsBlockPart t

/-- Whether a token ends a part of a pair between square brackets. -/
def endsPairPart : Token → Bool
  | .flowEntry | .flowSequenceEnd => true
  | _ => false

/-- Whether a token ends a part of a mapping between braces. -/
def endsFlowPart : Token → Bool
  | .flowEntry | .flowMappingEnd => true
  | _ => false

/-- Reads a node, unless the token ahead shows that it is empty. -/
def orEmpty (isEmpty : Token → Bool) (node : TreeStep Node) : TreeStep Node := do
  match ← peek with
  | none => return .broken
  | some t => if isEmpty t then emptyScalar else node

/-- Reads the value of an entry, which is empty without its indicator. -/
def valueOf (isEmpty : Token → Bool) (node : TreeStep Node) : TreeStep Node := do
  match ← peek with
  | none => return .broken
  | some .value =>
    skip
    orEmpty isEmpty node
  | some _ => emptyScalar

def finish {β : Type} (parts : List β) : TreeStep (List β) := do
  count
  return parts.reverse

mutual

/-- Reads a node. `block` allows block collections, and `indentless` allows a block sequence at the
indentation of the mapping around it. -/
def node : Nat → (block indentless : Bool) → TreeStep Node
  | 0, _, _ => fail
  | fuel + 1, block, indentless => do
    match ← peek with
    | none => return .broken
    | some (.alias name) =>
      skip
      aliasOf name
    | some _ =>
      let (anchor, tag) ← properties
      match ← peek with
      | none => return .broken
      | some (.scalar style text) =>
        skip
        let slot ← slotOf anchor
        count
        return .scalar slot tag style text
      | some t =>
        let collection :=
          if indentless && t == .blockEntry then some (false, items fuel false [])
          else if t == .flowSequenceStart then some (true, flowItems fuel true [])
          else if block && t == .blockSequenceStart then some (true, items fuel true [])
          else none
        let table :=
          if t == .flowMappingStart then some (flowEntries fuel true [])
          else if block && t == .blockMappingStart then some (entries fuel [])
          else none
        match collection, table with
        | some (hasStart, items), _ =>
          let slot ← slotOf anchor
          count
          if hasStart then skip
          return .sequence slot tag (← items)
        | none, some entries =>
          let slot ← slotOf anchor
          count
          skip
          return .mapping slot tag (← entries)
        | none, none =>
          if anchor.isSome || tag.isSome then emptyScalar anchor tag else fail

/-- Reads the entries of a block sequence. One that is not indented ends at the first token that is
no entry, the others at the end of the block. -/
def items : Nat → (indented : Bool) → List Node → TreeStep (List Node)
  | 0, _, done => return ((← fail) :: done).reverse
  | fuel + 1, indented, done => do
    match ← peek with
    | none => return (.broken :: done).reverse
    | some .blockEntry =>
      skip
      let isEmpty := if indented then endsBlockEntry else endsPlainEntry
      let item ← orEmpty isEmpty (node fuel true false)
      if ← isStopped then return (item :: done).reverse
      items fuel indented (item :: done)
    | some t =>
      if !indented then finish done
      else if t == .blockEnd then
        skip
        finish done
      else return ((← fail) :: done).reverse

/-- Reads the entries of a block mapping. -/
def entries : Nat → List (Node × Node) → TreeStep (List (Node × Node))
  | 0, done => return ((← fail, .broken) :: done).reverse
  | fuel + 1, done => do
    match ← peek with
    | none => return ((.broken, .broken) :: done).reverse
    | some .key =>
      skip
      let k ← orEmpty endsBlockPart (node fuel true true)
      let v ← valueOf endsBlockPart (node fuel true true)
      if ← isStopped then return ((k, v) :: done).reverse
      entries fuel ((k, v) :: done)
    | some .blockEnd =>
      skip
      finish done
    | some _ => return ((← fail, .broken) :: done).reverse

/-- Reads the items between square brackets. -/
def flowItems : Nat → (first : Bool) → List Node → TreeStep (List Node)
  | 0, _, done => return ((← fail) :: done).reverse
  | fuel + 1, first, done => do
    match ← peek with
    | none => return (.broken :: done).reverse
    | some .flowSequenceEnd =>
      skip
      finish done
    | some t =>
      if !first && t != .flowEntry then return ((← fail) :: done).reverse
      if !first then skip
      match ← peek with
      | none => return (.broken :: done).reverse
      | some .flowSequenceEnd =>
        skip
        finish done
      | some t =>
        let item ← if t == .key then pair fuel else node fuel false false
        if ← isStopped then return (item :: done).reverse
        flowItems fuel false (item :: done)

/-- Reads a key and its value between square brackets as a mapping of one entry. -/
def pair : Nat → TreeStep Node
  | 0 => fail
  | fuel + 1 => do
    count
    skip
    let k ← match ← peek with
      | none => pure .broken
      | some t =>
        if t == .value || endsPairPart t then
          skip
          emptyScalar
        else node fuel false false
    let v ← valueOf endsPairPart (node fuel false false)
    if (← peek).isSome then count
    return .mapping none none [(k, v)]

/-- Reads the entries between braces. -/
def flowEntries : Nat → (first : Bool) → List (Node × Node) → TreeStep (List (Node × Node))
  | 0, _, done => return ((← fail, .broken) :: done).reverse
  | fuel + 1, first, done => do
    match ← peek with
    | none => return ((.broken, .broken) :: done).reverse
    | some .flowMappingEnd =>
      skip
      finish done
    | some t =>
      if !first && t != .flowEntry then return ((← fail, .broken) :: done).reverse
      if !first then skip
      match ← peek with
      | none => return ((.broken, .broken) :: done).reverse
      | some .flowMappingEnd =>
        skip
        finish done
      | some t =>
        let (k, v) ←
          if t == .key then do
            skip
            let k ← orEmpty (fun t => t == .value || endsFlowPart t) (node fuel false false)
            let v ← valueOf endsFlowPart (node fuel false false)
            pure (k, v)
          else do
            let k ← node fuel false false
            let v ← orEmpty (fun _ => true) fail
            pure (k, v)
        if ← isStopped then return ((k, v) :: done).reverse
        flowEntries fuel false ((k, v) :: done)

end

/-- Reads the directives before a document; `versioned` is whether there was a version. -/
def directives : Nat → (versioned : Bool) → TreeStep Unit
  | 0, _ => stop
  | fuel + 1, versioned => do
    match ← peek with
    | some (.version major minor) =>
      if versioned || major != 1 || (minor != 1 && minor != 2) then stop
      else
        skip
        directives fuel true
    | some (.tagHandle handle expansion) =>
      let r ← get
      if (r.handles.lookup handle).isSome then stop
      else
        set { r with handles := (handle, expansion) :: r.handles }
        skip
        directives fuel versioned
    | _ => pure ()

/-- Whether a token starts or ends a document. -/
def endsDocument : Token → Bool
  | .version .. | .tagHandle .. | .documentStart | .documentEnd | .streamEnd => true
  | _ => false

/-- The handles that need no declaration. -/
def defaultHandles : List (String × Tag) := [("!", .lone), ("!!", .ofText Tag.corePrefix)]

/-- Reads a document that does not start at the end of the stream. `bare` allows it to start
without directives and marker. -/
def document (fuel : Nat) (bare : Bool) : TreeStep Node := do
  match ← peek with
  | none => return .broken
  | some t =>
    if bare && (t == .documentEnd || !endsDocument t) then
      modify fun r => { r with handles := defaultHandles }
      node fuel true false
    else
      directives fuel false
      modify fun r => { r with handles := r.handles ++ defaultHandles }
      match ← peek with
      | some .documentStart =>
        skip
        orEmpty endsDocument (node fuel true false)
      | _ => fail

end TreeStep

open TreeStep in
/-- The documents that tokens form. After the first, a document needs its marker. -/
def documentsFrom : Nat → (bare : Bool) → List Token → List Tree
  | 0, _, _ => []
  | fuel + 1, bare, tokens =>
    let tokens := if bare then tokens else tokens.dropWhile (· == .documentEnd)
    if tokens.head? = some .streamEnd then []
    else
      let (root, r) := (document (4 * tokens.length + 4) bare).run { tokens }
      if r.stopped ∨ r.tokens = [] then [⟨root, true, r.size⟩]
      else
        let rest := if r.tokens.head? = some .documentEnd then r.tokens.drop 1 else r.tokens
        ⟨root, false, r.size⟩ :: documentsFrom fuel false rest

def documents (text : String) : List Tree :=
  let ts := tokens text.toList
  documentsFrom (ts.length + 1) true ts

mutual

/-- The nodes with an anchor inside a node, each with its slot, in the order of the text. -/
def Node.anchored : Node → List (Nat × Node)
  | n@(.scalar slot _ _ _) => slot.toList.map fun s => (s, n)
  | n@(.sequence slot _ items) => (slot.toList.map fun s => (s, n)) ++ anchoredItems items
  | n@(.mapping slot _ entries) => (slot.toList.map fun s => (s, n)) ++ anchoredEntries entries
  | .alias _ | .broken => []

def Node.anchoredItems : List Node → List (Nat × Node)
  | [] => []
  | n :: rest => n.anchored ++ anchoredItems rest

def Node.anchoredEntries : List (Node × Node) → List (Nat × Node)
  | [] => []
  | (k, v) :: rest => k.anchored ++ v.anchored ++ anchoredEntries rest

end

end SeededArt.Yaml
