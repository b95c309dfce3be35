/-
  MiniML/Settings/Toml/Document.lean
  ==================================
  **The tables of TOML** — what the statements of a document build up.  A name may
  be given once, with these exceptions: a table that only came about because
  something inside it was named may still be opened or extended, and what was
  given as an array may be given again.

  Whether a path is implied, or an array, is known by its names alone; it does not
  matter in which table of a list it lies.
-/
import MiniML.Settings.Toml.Syntax

namespace MiniML.Toml

/-- What a name stands for. -/
inductive Node where
  | leaf (v : Value)
  | table (entries : List (String × Node))
  /-- A list of tables, the last one first.  It is never empty. -/
  | rows (rows : List (List (String × Node)))

/-- A table: its names in the order in which they came up. -/
abbrev Table := List (String × Node)

def Table.put (name : String) (node : Node) : Table → Table
  | [] => [(name, node)]
  | e :: rest => if e.1 = name then (name, node) :: rest else e :: Table.put name node rest

theorem Table.lookup_put (name : String) (node : Node) (t : Table) :
    (Table.put name node t).lookup name = some node := by
  induction t with
  | nil => simp [Table.put]
  | cons e rest ih =>
    obtain ⟨other, old⟩ := e
    by_cases h : other = name
    · simp [Table.put, h]
    · have hne : (name == other) = false := beq_eq_false_iff_ne.mpr (Ne.symm h)
      simp [Table.put, h, List.lookup_cons, hne, ih]

/-- A document in the making. -/
structure Document where
  root : Table := []
  /-- The paths that may still be opened or extended. -/
  implied : List (List String) := []
  /-- The paths that were last given as arrays. -/
  arrays : List (List String) := []

namespace Document

/-- Changes the table at a path.  In a list of tables the last one is meant. -/
def within (change : Table → Option Table) : List String → Table → Option Table
  | [], t => change t
  | name :: path, t =>
    match t.lookup name with
    | some (.table inner) =>
      (within change path inner).map fun inner => t.put name (.table inner)
    | some (.rows (row :: rows)) =>
      (within change path row).map fun row => t.put name (.rows (row :: rows))
    | _ => none

def find? (t : Table) : List String → String → Option Node
  | [], name => t.lookup name
  | outer :: path, name =>
    match t.lookup outer with
    | some (.table inner) => find? inner path name
    -- a list of tables stands for its last one, which is kept in front
    | some (.rows (row :: _)) => find? row path name
    | _ => none

def imply (d : Document) (path : List String) : Document :=
  { d with implied := path :: d.implied }

def settle (d : Document) (path : List String) : Document :=
  { d with implied := d.implied.filter (· ≠ path) }

/-- Notes whether the value of a key is an array.  For an empty name, what is noted
    belongs to its table. -/
def note (d : Document) (table : List String) (name : String) (isArray : Bool) : Document :=
  let path := if name ≠ "" ∨ table = [] then table ++ [name] else table
  let others := d.arrays.filter (· ≠ path)
  { d with arrays := if isArray then path :: others else others }

/-- Gives a name in the table at a path. -/
def define (d : Document) (table : List String) (name : String) (node : Node) :
    Option Document :=
  let path := table ++ [name]
  let put : Option Document :=
    (within (fun t => some (t.put name node)) table d.root).map fun root => { d with root }
  match find? d.root table name with
  | none => put
  | some _ =>
    -- an array may be given again, a table that was only implied may be opened once
    if d.arrays.contains path then put.map (·.settle path)
    else if d.implied.contains path then some (d.settle path)
    else none

/-- Makes sure that there are tables along a path below another. -/
def ensure (above : List String) : List String → Document → Option Document
  | [], d => some d
  | name :: path, d =>
    let here := above ++ [name]
    match find? d.root above name with
    | some _ => ensure here path d
    | none => do
      let root ← within (fun t => some (t.put name (.table []))) above d.root
      ensure here path { d.imply here with root }

/-- Opens a table, or one more table of a list if `row` holds. -/
def enter (d : Document) (k : Key) (row : Bool) : Option Document := do
  let d ← ensure [] k.parents d
  if row then do
    let root ← within
      (fun t =>
        match t.lookup k.name with
        | none => some (t.put k.name (.rows [[]]))
        | some (.rows rows) => some (t.put k.name (.rows ([] :: rows)))
        | some _ => none)
      k.parents d.root
    return { d with root }
  else d.define k.parents k.name (.table [])

/-- Opens the tables that a dotted key names below another table. -/
def enterParents (above : List String) : List String → Document → Option Document
  | [], d => some d
  | name :: path, d => do
    enterParents (above ++ [name]) path (← (d.imply (above ++ [name])).enter ⟨above, name⟩ false)

/-- Gives a name the node that it has come to stand for. -/
def confirm (d : Document) (table : List String) (name : String) (given : Option Node) :
    Option Document :=
  match given.or (find? d.root table name) with
  | some node => d.define table name node
  | none => none

mutual

/-- Builds up what stands inside a value that is given to a name of a table. -/
def place (table : List String) (name : String) (inArray : Bool) : Expr → Document → Option Document
  | .scalar _, d => some d
  | .array items, d => placeItems table name items (d.note table name true)
  | .table pairs, d => do
    let path := table ++ [name]
    placePairs path pairs (← (d.imply path).enter ⟨table, name⟩ inArray)

/-- Builds up what stands inside the elements of an array. -/
def placeItems (table : List String) (name : String) :
    List Expr → Document → Option Document
  | [], d => some d
  | e :: rest, d => do placeItems table name rest (← place table name true e d)

/-- Gives the keys of an inline table their values. -/
def placePairs (table : List String) : List (Key × Expr) → Document → Option Document
  | [], d => some d
  | (k, e) :: rest, d => do
    let here := table ++ k.parents
    let d ← enterParents table k.parents d
    let d ← place here k.name false e d
    let d ← match e with
      | .scalar v => confirm d here k.name (some (.leaf v))
      | .array _ => confirm d here k.name (some (.leaf .other))
      | .table _ => confirm d here k.name none
    let isArray := match e with
      | .array _ => true
      | _ => false
    placePairs table rest (d.note here k.name isArray)

end

/-- Takes statements into account one after another; `table` is the one that keys
    belong to. -/
def extend : List String → List Statement → Document → Option Document
  | _, [], d => some d
  | table, .pair k e :: rest, d => do extend table rest (← placePairs table [(k, e)] d)
  | _, .header k :: rest, d => do
    let d ← d.enter k false
    extend k.path rest (d.note k.path "" false)
  | _, .rowHeader k :: rest, d => do
    let d ← d.enter k true
    extend k.path rest (d.note k.path "" false)

end Document

def readTables (cs : List Char) : Option Table := do
  let d ← Document.extend [] (← readStatements cs) {}
  return d.root

end MiniML.Toml
