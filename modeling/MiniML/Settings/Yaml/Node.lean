/-
  MiniML/Settings/Yaml/Node.lean
  ==============================
  **The nodes of YAML** — scalars, sequences, mappings and aliases, composed from
  tokens.  Only the first document of a text counts, and what follows its node is
  not looked at, except as far as the reader looks ahead anyway.

  An anchored node is known by a number from the moment it begins, so that an alias
  may stand inside the node that it refers to.
-/
import MiniML.Settings.Yaml.Scan

namespace MiniML.Yaml

inductive Node where
  /-- A scalar, whether it was written without quotes, and its tag; the empty tag
      stands for none. -/
  | scalar (text : String) (plain : Bool) (tag : String)
  | sequence (items : List Node)
  | mapping (entries : List (Node × Node))
  /-- Another name for the anchored node with a number. -/
  | alias (name : String) (target : Nat)

/-- The node of a value that is not there. -/
def Node.missing : Node := .scalar "" true ""

/-- The state of reading: the tokens that are left, the numbers of the anchors so
    far, the last one first, the nodes that they stand for, and the handles of
    tags. -/
structure Reading where
  rest : List Token
  anchors : List (String × Nat) := []
  named : List (Nat × Node) := []
  handles : List (String × String) := []

namespace Reading

def isAt (p : Reading) (ts : List Token) : Bool := p.rest.head?.any ts.contains

def next (p : Reading) : Reading := { p with rest := p.rest.tail }

def anchor (p : Reading) : Option String × Reading :=
  match p.rest with
  | .anchor name :: _ => (some name, p.next)
  | _ => (none, p)

/-- The tag of a node; its handle must be known. -/
def tag (p : Reading) : Option (String × Reading) :=
  match p.rest with
  | .tag handle suffix :: _ =>
    if handle = "" then some (suffix, p.next)
    else (p.handles.lookup handle).map fun stem => (stem ++ suffix, p.next)
  | _ => some ("", p)

/-- The anchor and the tag of a node, in either order. -/
def properties (p : Reading) : Option (Option String × String × Reading) := do
  match p.anchor with
  | (some name, p) => do
    let (tag, p) ← p.tag
    return (some name, tag, p)
  | (none, p) => do
    let (tag, p) ← p.tag
    let (name, p) := if tag = "" then (none, p) else p.anchor
    return (name, tag, p)

/-- Gives the anchor of a node a number. -/
def register (name : Option String) (number : Nat) (p : Reading) : Reading :=
  match name with
  | some name => { p with anchors := (name, number) :: p.anchors }
  | none => p

/-- Keeps an anchored node under its number. -/
def keep (name : Option String) (number : Nat) (r : Node × Reading) : Node × Reading :=
  match name with
  | some _ => (r.1, { r.2 with named := (number, r.1) :: r.2.named })
  | none => r

mutual

/-- Reads a node.  Block collections are only possible where `inBlock` holds, and a
    sequence that is not indented only as a key or value of a block mapping. -/
def node : Nat → Bool → Bool → Reading → Option (Node × Reading)
  | 0, _, _, _ => none
  | fuel + 1, inBlock, flush, p =>
    match p.rest with
    | .alias name :: _ => (p.anchors.lookup name).map fun n => (.alias name n, p.next)
    | _ => do
      let (name, tag, p) ← p.properties
      -- no two nodes begin with as many tokens left
      let number := p.rest.length
      let p := p.register name number
      let r ← content fuel inBlock flush (name.isSome || tag ≠ "") tag p
      return keep name number r

/-- Reads a node behind its properties.  With properties it may be missing. -/
def content : Nat → Bool → Bool → Bool → String → Reading → Option (Node × Reading)
  | 0, _, _, _, _, _ => none
  | fuel + 1, inBlock, flush, mayMiss, tag, p =>
    if flush && p.isAt [.blockEntry] then
      (blockItems fuel true p).map fun r => (.sequence r.1, r.2)
    else if p.isAt [.flowSequenceStart] then
      (flowItems fuel true p.next).map fun r => (.sequence r.1, r.2)
    else if p.isAt [.flowMappingStart] then
      (flowPairs fuel true p.next).map fun r => (.mapping r.1, r.2)
    else if inBlock && p.isAt [.blockSequenceStart] then
      (blockItems fuel false p.next).map fun r => (.sequence r.1, r.2)
    else if inBlock && p.isAt [.blockMappingStart] then
      (blockPairs fuel p.next).map fun r => (.mapping r.1, r.2)
    else
      match p.rest with
      | .scalar text plain :: _ => some (.scalar text plain tag, p.next)
      | _ => if mayMiss then some (.scalar "" true tag, p) else none

/-- Reads the entries of a block sequence; `flush` tells whether it is one that is
    not indented. -/
def blockItems : Nat → Bool → Reading → Option (List Node × Reading)
  | 0, _, _ => none
  | fuel + 1, flush, p =>
    if p.isAt [.blockEntry] then do
      let p := p.next
      let ends := if flush then [Token.blockEntry, .key, .value, .blockEnd]
        else [Token.blockEntry, .blockEnd]
      let (item, p) ← if p.isAt ends then some (.missing, p) else node fuel true false p
      let (more, p) ← blockItems fuel flush p
      return (item :: more, p)
    else if flush then some ([], p)
    else if p.isAt [.blockEnd] then some ([], p.next)
    else none

def blockPairs : Nat → Reading → Option (List (Node × Node) × Reading)
  | 0, _ => none
  | fuel + 1, p =>
    let part (p : Reading) : Option (Node × Reading) :=
      if p.isAt [.key, .value, .blockEnd] then some (.missing, p) else node fuel true true p
    if p.isAt [.key] then do
      let (k, p) ← part p.next
      let (v, p) ← if p.isAt [.value] then part p.next else some (.missing, p)
      let (more, p) ← blockPairs fuel p
      return ((k, v) :: more, p)
    else if p.isAt [.blockEnd] then some ([], p.next)
    else none

/-- Reads the items of a flow sequence, of which `first` tells whether none was read
    yet.  A key with its value is a mapping of its own. -/
def flowItems : Nat → Bool → Reading → Option (List Node × Reading)
  | 0, _, _ => none
  | fuel + 1, first, p =>
    if p.isAt [.flowSequenceEnd] then some ([], p.next)
    else if !first && !p.isAt [.flowEntry] then none
    else
      let p := if first then p else p.next
      if p.isAt [.flowSequenceEnd] then some ([], p.next)
      else do
        let (item, p) ← if p.isAt [.key] then flowSingle fuel p.next else node fuel false false p
        let (more, p) ← flowItems fuel false p
        return (item :: more, p)

/-- Reads a key and its value inside a flow sequence.  Where the key is missing, the
    token in its place is passed over. -/
def flowSingle : Nat → Reading → Option (Node × Reading)
  | 0, _ => none
  | fuel + 1, p => do
    let (k, p) ← if p.isAt [.value, .flowEntry, .flowSequenceEnd] then some (.missing, p.next)
      else node fuel false false p
    let (v, p) ←
      if p.isAt [.value] then
        if p.next.isAt [.flowEntry, .flowSequenceEnd] then some (.missing, p.next)
        else node fuel false false p.next
      else some (.missing, p)
    return (.mapping [(k, v)], p)

/-- Reads the pairs of a flow mapping, of which `first` tells whether none was read
    yet.  A node that is no key has no value. -/
def flowPairs : Nat → Bool → Reading → Option (List (Node × Node) × Reading)
  | 0, _, _ => none
  | fuel + 1, first, p =>
    if p.isAt [.flowMappingEnd] then some ([], p.next)
    else if !first && !p.isAt [.flowEntry] then none
    else
      let p := if first then p else p.next
      if p.isAt [.flowMappingEnd] then some ([], p.next)
      else do
        let (pair, p) ←
          if p.isAt [.key] then do
            let p := p.next
            let (k, p) ← if p.isAt [.value, .flowEntry, .flowMappingEnd] then some (.missing, p)
              else node fuel false false p
            let (v, p) ←
              if p.isAt [.value] then
                if p.next.isAt [.flowEntry, .flowMappingEnd] then some (.missing, p.next)
                else node fuel false false p.next
              else some (.missing, p)
            some ((k, v), p)
          else do
            let (k, p) ← node fuel false false p
            some ((k, .missing), p)
        let (more, p) ← flowPairs fuel false p
        return (pair :: more, p)

end

/-! ### Documents -/

/-- Reads directives: the version may be given once and must be 1.1, and each handle
    may be given once. -/
def directives (versioned : Bool) : List Token → Reading → Option Reading
  | .version major minor :: rest, p =>
    if versioned ∨ major ≠ 1 ∨ minor ≠ 1 then none else directives true rest p.next
  | .handle name stem :: rest, p =>
    if p.handles.any (·.1 == name) then none
    else directives versioned rest { p.next with handles := (name, stem) :: p.handles }
  | _, p => some p

/-- The handles that need no directive. -/
def commonHandles : List (String × String) := [("!", "!"), ("!!", "tag:yaml.org,2002:")]

def document (p : Reading) : Option (Option Node × Reading) :=
  let fuel := 4 * p.rest.length + 4
  if p.isAt [.streamEnd] then some (none, p)
  else do
    let q ← directives false p.rest p
    let q' := { q with handles := q.handles ++ commonHandles }
    if q.isAt [.documentStart] then
      let q := q'.next
      match q.rest with
      | .version _ _ :: _ | .handle _ _ :: _ => return (some .missing, q)
      | _ =>
        if q.isAt [.documentStart, .documentEnd, .streamEnd] then return (some .missing, q)
        else (node fuel true false q).map fun r => (some r.1, r.2)
    else if q.rest.length < p.rest.length then none
    else (node fuel true false q').map fun r => (some r.1, r.2)

end Reading

/-- The node of a document, and the anchored nodes by their numbers. -/
structure Document where
  root : Option Node
  named : List (Nat × Node)

/-- The first document of a text.  A fault behind it counts if the reader meets it. -/
def document? (cs : List Char) : Option Document := do
  let scanned := scan (← scannable? cs)
  let (root, p) ← Reading.document { rest := scanned.tokens }
  if scanned.meetsFault (scanned.tokens.length - p.rest.length) then none
  else return ⟨root, p.named⟩

end MiniML.Yaml
