/-
  MiniML/Settings/Toml/Syntax.lean
  ================================
  **The lines of TOML** — a document is a list of statements: the header of a table,
  the header of one more table of a list, or a key with its value.  Arrays and
  inline tables may go on over several lines, and a comma may follow their last
  element.
-/
import MiniML.Settings.Toml.Scalar

namespace MiniML.Toml

/-- A key: its last part, and the parts before it. -/
structure Key where
  parents : List String
  name : String
deriving DecidableEq, Repr

def Key.path (k : Key) : List String := k.parents ++ [k.name]

/-- A value as it is written. -/
inductive Expr where
  | scalar (v : Value)
  | array (items : List Expr)
  | table (pairs : List (Key × Expr))

inductive Statement where
  | header (key : Key)
  /-- The header of one more table of a list. -/
  | rowHeader (key : Key)
  | pair (key : Key) (value : Expr)

/-! ### Blanks, comments and line ends -/

def skipBlanks (cs : List Char) : List Char := cs.dropWhile isBlank

/-- Passes over blanks and a comment. -/
def skipComment (cs : List Char) : List Char :=
  match skipBlanks cs with
  | '#' :: rest => rest.dropWhile fun c => !isNewline c
  | rest => rest

/-- Passes over blanks, comments and line breaks. -/
def skipLines : Nat → List Char → List Char
  | 0, cs => cs
  | fuel + 1, cs =>
    match skipComment cs with
    | [] => []
    | c :: rest => if isNewline c then skipLines fuel rest else c :: rest

def lineEnd (cs : List Char) : Option (List Char) :=
  match skipComment cs with
  | [] => some []
  | c :: rest => if isNewline c then some rest else none

/-! ### Keys -/

def isBareKeyChar (c : Char) : Bool := isDecimal c || isAsciiLetter c || c == '_' || c == '-'

def keyPart (cs : List Char) : Option (String × List Char) :=
  match cs with
  | '"' :: _ | '\'' :: _ => shortText cs
  | _ =>
    let bare := cs.takeWhile isBareKeyChar
    if bare = [] then none else some (String.ofList bare, cs.drop bare.length)

/-- Reads a key: parts with dots between them. -/
def key : Nat → List Char → Option (Key × List Char)
  | 0, _ => none
  | fuel + 1, cs => do
    let (part, rest) ← keyPart (skipBlanks cs)
    match skipBlanks rest with
    | '.' :: rest => do
      let (k, rest) ← key fuel rest
      return ({ k with parents := part :: k.parents }, rest)
    | rest => return (⟨[], part⟩, rest)

/-! ### Values -/

/-- Reads a key and its value, given a reader of values. -/
def pair (value : List Char → Option (Expr × List Char)) (cs : List Char) :
    Option ((Key × Expr) × List Char) := do
  let (k, rest) ← key cs.length cs
  match rest with
  | '=' :: rest => do
    let (v, rest) ← value (skipBlanks rest)
    return ((k, v), rest)
  | _ => none

/-- Reads elements up to a closing mark, given a reader of elements. -/
def elements {α : Type} (element : List Char → Option (α × List Char)) (close : Char) :
    Nat → List Char → Option (List α × List Char)
  | 0, _ => none
  | fuel + 1, cs =>
    match skipLines cs.length cs with
    | [] => none
    | c :: rest =>
      if c == close then some ([], rest)
      else do
        let (item, rest) ← element (c :: rest)
        match skipLines rest.length rest with
        | [] => none
        | c :: rest =>
          if c == close then some ([item], rest)
          else if c == ',' then do
            let (more, rest) ← elements element close fuel rest
            return (item :: more, rest)
          else none

/-- Reads a value.  The bound on the nesting of arrays and tables is never reached
    when it is the length of the text. -/
def value : Nat → List Char → Option (Expr × List Char)
  | 0, _ => none
  | fuel + 1, cs =>
    match cs with
    | '[' :: rest => do
      let (items, rest) ← elements (value fuel) ']' cs.length rest
      return (.array items, rest)
    | '\x7b' :: rest => do
      let (pairs, rest) ← elements (pair (value fuel)) '\x7d' cs.length rest
      return (.table pairs, rest)
    | _ => (scalar cs).map fun r => (.scalar r.1, r.2)

/-! ### Statements -/

def statement (cs : List Char) : Option (Statement × List Char) :=
  match cs with
  | '[' :: '[' :: rest => do
    let (k, rest) ← key rest.length rest
    match rest with
    | ']' :: ']' :: rest => return (.rowHeader k, rest)
    | _ => none
  | '[' :: rest => do
    let (k, rest) ← key rest.length rest
    match rest with
    | ']' :: rest => return (.header k, rest)
    | _ => none
  | _ => (pair (value cs.length) cs).map fun r => (.pair r.1.1 r.1.2, r.2)

def statements : Nat → List Char → Option (List Statement)
  | 0, _ => none
  | fuel + 1, cs =>
    match skipLines cs.length cs with
    | [] => some []
    | c :: rest => do
      let (s, rest) ← statement (c :: rest)
      let rest ← lineEnd rest
      return s :: (← statements fuel rest)

/-- Control characters, which no document may hold; tabs and line breaks are none. -/
def isControl (c : Char) : Bool :=
  (c.toNat < 0x20 && c != '\t' && !isNewline c) || c.toNat == 0x7F

/-- Whether a text holds no control character and no carriage return without a line
    feed behind it. -/
def isClean : List Char → Bool
  | [] => true
  | c :: rest => !isControl c && (c != '\r' || rest.head? == some '\n') && isClean rest

/-- The statements of a text.  A byte order mark at its beginning is no part of it. -/
def readStatements (cs : List Char) : Option (List Statement) :=
  let cs := if cs.head? = some (Char.ofNat 0xFEFF) then cs.tail else cs
  if isClean cs then statements (cs.length + 1) cs else none

end MiniML.Toml
