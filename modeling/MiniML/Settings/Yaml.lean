/-
  MiniML/Settings/Yaml.lean
  =========================
  **Settings in YAML** — a document is a mapping whose keys are the names of
  settings, or nothing.  Names that belong to no setting are ignored, whatever they
  stand for.  A mapping may be merged into the document by the key `<<`; what the
  document says itself comes first, and then what is merged earlier.

  What a value means depends on the setting: a number may have a fraction, a truth
  value may be a word such as `yes`, and a text is taken as it is written.
-/
import MiniML.Settings.Basic
import MiniML.Settings.Yaml.Content

namespace MiniML.Yaml

/-- The node that is meant: behind an alias, the anchored one. -/
def Document.target (doc : Document) : Node → Node
  | .alias name n => (doc.named.lookup n).getD (.alias name n)
  | node => node

/-! ### Values -/

/-- The integer that a scalar gives a setting, or nothing if it gives none.  A
    number with a fraction is cut towards zero, and one that is too small becomes
    the least integer. -/
def integerOf? : Content → Option Int64
  | .integer n => int64? n
  | .float n =>
    if n ≤ 0x8000000000000000 then some ((int64? n).getD Int64.minValue) else none
  | _ => none

def wordTruth? (s : String) : Option Bool :=
  if ["y", "Y", "yes", "Yes", "YES", "on", "On", "ON"].contains s then some true
  else if ["n", "N", "no", "No", "NO", "off", "Off", "OFF"].contains s then some false
  else none

/-- The truth value that a scalar gives a setting. -/
def truthOf? : Content → Option Bool
  | .boolean b => some b
  | .text s => wordTruth? s
  | _ => none

def settingNames : List String := ["max_steps", "unify_fuel", "color", "debug"]

/-- Gives a setting a value that is there. -/
def set (d : Declared) (name text : String) (c : Content) : Option Declared :=
  match name with
  | "max_steps" => (integerOf? c).map fun n => { d with maxSteps := n }
  | "unify_fuel" => (integerOf? c).map fun n => { d with unifyFuel := n }
  | "color" => some { d with color := textOf text c }
  | "debug" => (truthOf? c).map fun b => { d with debug := b }
  | _ => some d

/-- Takes the value of one setting into account: a missing value leaves it as it
    is, and a value of another kind is refused. -/
def declare (doc : Document) (d : Declared) (name : String) (value : Node) : Option Declared :=
  if !settingNames.contains name then some d
  else
    match doc.target value with
    | .scalar text plain tag => do
      match ← content? text plain tag with
      | .null => some d
      | c => set d name text c
    | _ => none

/-! ### Keys -/

/-- The name that a key gives, if it is no null; a collection is no key. -/
def keyName? (doc : Document) (key : Node) : Option (Option String) :=
  match doc.target key with
  | .scalar text plain tag => do
    match ← content? text plain tag with
    | .null => some none
    | c => some (some (textOf text c))
  | _ => none

def isMerge : Node → Bool
  | .scalar text plain tag =>
    text == "<<" && ((plain && (tag == "" || tag == "!")) || shortTag tag == "!!merge")
  | _ => false

def sameKey : Node → Node → Bool
  | .scalar a _ _, .scalar b _ _ => a == b
  | .alias a _, .alias b _ => a == b
  | .sequence _, .sequence _ => true
  | .mapping _, .mapping _ => true
  | _, _ => false

def keysDistinct : List (Node × Node) → Bool
  | [] => true
  | e :: rest => !rest.any (fun f => sameKey e.1 f.1) && keysDistinct rest

/-! ### Mappings -/

/-- What was declared so far, and the names that were given. -/
structure Progress where
  declared : Declared := {}
  given : List String := []
deriving DecidableEq, Repr

/-- Takes one entry of a mapping into account.  In a merged mapping, names that were
    given before are passed over; in the document itself a setting may not be given
    again. -/
def entry (doc : Document) (merged : Bool) (p : Progress) (e : Node × Node) : Option Progress := do
  if isMerge e.1 then some p
  else
    match ← keyName? doc e.1 with
    | none => some p
    | some name =>
      if p.given.contains name then
        if !merged && settingNames.contains name then none else some p
      else do
        let declared ← declare doc p.declared name e.2
        return ⟨declared, name :: p.given⟩

def entriesOf? (doc : Document) (n : Node) : Option (List (Node × Node)) :=
  match doc.target n with
  | .mapping entries => some entries
  | _ => none

/-- The mappings that a node stands for in a merge: itself, or those that it lists. -/
def mergeSources? (doc : Document) : Node → Option (List (List (Node × Node)))
  | .sequence items => items.mapM (entriesOf? doc)
  | n => (entriesOf? doc n).map ([·])

/-- Takes a mapping into account, and then what is merged into it.  A mapping that
    is merged into itself exhausts any bound and is refused. -/
def mapping (doc : Document) :
    Nat → Bool → Progress → List (Node × Node) → Option Progress
  | 0, _, _, _ => none
  | fuel + 1, merged, p, entries => do
    if !keysDistinct entries then none
    else do
      let p ← entries.foldlM (entry doc merged) p
      match entries.find? (fun e => isMerge e.1) with
      | none => some p
      | some e => do
        let sources ← mergeSources? doc e.2
        sources.foldlM (mapping doc fuel true) p

/-- What a text declares, if it is well formed, is a mapping or nothing, has no key
    twice, and its settings have values of the right kind. -/
def declared? (cs : List Char) : Option Declared := do
  let doc ← document? cs
  match doc.root with
  | none => some {}
  | some (.mapping entries) => do
    let p ← mapping doc (cs.length + 1) false {} entries
    return p.declared
  | some (.scalar text plain tag) => do
    if (← content? text plain tag) = .null then some {} else none
  | some _ => none

end MiniML.Yaml
