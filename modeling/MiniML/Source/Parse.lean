/-
  MiniML/Source/Parse.lean
  ========================
  **Parsing** — terms, statements and programs.

      term ::= atom⁺                          application, grouped to the left
      atom ::= ident | integer | () | ( term )
             | λ ident . term | ! atom | := atom atom
             | nil | let ident = term in term
             | ifz term then term else term | ife term then term else term
             | cons atom atom | add atom atom | sub atom atom
             | head atom | tail atom | fix atom | ref atom
      statement ::= let ident = term | term
      program   ::= statements separated by ;;

  Each function takes the tokens that are left and gives back those that it did
  not use; `stop` is the offset of the end of the input, where an error is placed
  when tokens are missing.  The functions for terms recurse on a bound of their
  depth that the number of tokens provides and that is never reached.
-/
import MiniML.Source.Scan
import MiniML.Term.Basic
import MiniML.Text.Numeral

namespace MiniML

/-- A statement of a program: a binding of a name, or a bare term. -/
structure Statement where
  binder : Option String
  term : Term
  /-- The byte offset at which the statement begins. -/
  offset : Nat
deriving DecidableEq, Repr

namespace Parse

/-- The next token; after the last one stands the end of the input. -/
def front (stop : Nat) : List Lexeme → Lexeme
  | [] => ⟨.eof, stop⟩
  | l :: _ => l

/-- The error for a next token that is not what the grammar asks for. -/
def refuse {α : Type} (stop : Nat) (wanted : Expected) (ts : List Lexeme) : Except ParseError α :=
  .error ⟨(front stop ts).offset, .unexpected wanted (front stop ts).token⟩

def expect (stop : Nat) (token : Token) (wanted : Expected) (ts : List Lexeme) :
    Except ParseError (List Lexeme) :=
  match ts with
  | l :: rest => if l.token = token then .ok rest else refuse stop wanted ts
  | [] => refuse stop wanted ts

def expectKeyword (stop : Nat) (k : Keyword) (ts : List Lexeme) :
    Except ParseError (List Lexeme) :=
  expect stop (.keyword k) (.keyword k) ts

def ident (stop : Nat) : List Lexeme → Except ParseError (String × List Lexeme)
  | ⟨.ident x, _⟩ :: rest => .ok (x, rest)
  | ts => refuse stop .identifier ts

/-- Accepts the end of the input only. -/
def finish (stop : Nat) : List Lexeme → Except ParseError Unit
  | [] => .ok ()
  | ts => refuse stop .endOfInput ts

/-- Whether a token can begin an atom. -/
def startsAtom : Token → Bool
  | .ident _ | .int _ | .lambda _ | .lparen | .unit | .bang | .assign => true
  | .keyword k => k != .inKw && k != .thenKw && k != .elseKw
  | .dot | .rparen | .equals | .semi | .eof => false

def digitsValue (digits : String) : Nat :=
  digits.toList.foldl (fun n c => 10 * n + (c.toNat - 0x30)) 0

/-- The value of an integer literal, if it is a 64-bit integer. -/
def literal? (digits : String) : Option Int64 :=
  int64? (digitsValue digits)

/-! ### Forms built from smaller readers -/

/-- A reader takes tokens from the front, and gives a term and the tokens left. -/
abbrev Reader := List Lexeme → Except ParseError (Term × List Lexeme)

/-- Reads the integer literal with these digits, which stand at `offset`. -/
def integer (offset : Nat) (digits : String) : Reader := fun ts =>
  (literal? digits).elim (.error ⟨offset, .intOutOfRange digits⟩) fun n => .ok (.int n, ts)

def unary (operand : Reader) (build : Term → Term) : Reader := fun ts => do
  let (a, ts) ← operand ts
  return (build a, ts)

def binary (operand : Reader) (build : Term → Term → Term) : Reader := fun ts => do
  let (a, ts) ← operand ts
  let (b, ts) ← operand ts
  return (build a b, ts)

def branch (stop : Nat) (part : Reader) (build : Term → Term → Term → Term) : Reader :=
  fun ts => do
    let (c, ts) ← part ts
    let ts ← expectKeyword stop .thenKw ts
    let (t, ts) ← part ts
    let ts ← expectKeyword stop .elseKw ts
    let (e, ts) ← part ts
    return (build c t e, ts)

/-- Reads what stands between `let` and `in`. -/
def binding (stop : Nat) (part : Reader) (ts : List Lexeme) :
    Except ParseError (String × Term × List Lexeme) := do
  let (x, ts) ← ident stop ts
  let ts ← expect stop .equals .equals ts
  let (value, ts) ← part ts
  return (x, value, ts)

def abstraction (stop : Nat) (part : Reader) : Reader := fun ts => do
  let (x, ts) ← ident stop ts
  let ts ← expect stop .dot .dot ts
  let (body, ts) ← part ts
  return (.abs x body, ts)

def letTerm (stop : Nat) (part : Reader) : Reader := fun ts => do
  let (x, value, ts) ← binding stop part ts
  let ts ← expectKeyword stop .inKw ts
  let (body, ts) ← part ts
  return (.letIn x value body, ts)

/-- Reads the rest of a term in parentheses after the opening one. -/
def enclosed (stop : Nat) (part : Reader) : Reader := fun ts => do
  let (t, ts) ← part ts
  let ts ← expect stop .rparen .rparen ts
  return (t, ts)

/-! ### Terms -/

mutual

/-- Reads a term: an atom and the atoms that it is applied to. -/
def term (stop : Nat) : Nat → Reader
  -- never reached within `depthFor`
  | 0, ts => refuse stop .term ts
  | fuel + 1, ts => do
    let (first, ts) ← atom stop fuel ts
    application stop fuel first ts

def application (stop : Nat) : Nat → Term → Reader
  | 0, _, ts => refuse stop .term ts
  | fuel + 1, f, ts =>
    if startsAtom (front stop ts).token then do
      let (arg, ts) ← atom stop fuel ts
      application stop fuel (.app f arg) ts
    -- what cannot begin an atom ends the term
    else .ok (f, ts)

def atom (stop : Nat) : Nat → Reader
  | 0, ts => refuse stop .term ts
  | _ + 1, [] => refuse stop .term []
  | fuel + 1, l :: rest =>
    match l.token with
    | .ident x => .ok (.var x, rest)
    | .int digits => integer l.offset digits rest
    | .unit => .ok (.unit, rest)
    | .lparen => enclosed stop (term stop fuel) rest
    | .lambda _ => abstraction stop (term stop fuel) rest
    | .bang => unary (atom stop fuel) .deref rest
    | .assign => binary (atom stop fuel) .assign rest
    | .keyword k =>
      match k with
      | .nilKw => .ok (.nil, rest)
      | .letKw => letTerm stop (term stop fuel) rest
      | .ifzKw => branch stop (term stop fuel) .ifZero rest
      | .ifeKw => branch stop (term stop fuel) .ifEmpty rest
      | .consKw => binary (atom stop fuel) .cons rest
      | .addKw => binary (atom stop fuel) .add rest
      | .subKw => binary (atom stop fuel) .sub rest
      | .headKw => unary (atom stop fuel) .head rest
      | .tailKw => unary (atom stop fuel) .tail rest
      | .fixKw => unary (atom stop fuel) .fix rest
      | .refKw => unary (atom stop fuel) .mkRef rest
      | .inKw | .thenKw | .elseKw => refuse stop .term (l :: rest)
    | .dot | .rparen | .equals | .semi | .eof => refuse stop .term (l :: rest)

end

/-- A bound on the depth of recursion that suffices for a sequence of tokens: each
    token adds at most a term and an atom. -/
def depthFor (ts : List Lexeme) : Nat := 2 * ts.length + 2

def readTerm (stop : Nat) : Reader := fun ts => term stop (depthFor ts) ts

/-! ### Statements and programs -/

/-- Reads a statement.  After `let` it is a binding, unless `in` makes it a term;
    such a term may be applied like any other atom. -/
def statement (stop : Nat) (ts : List Lexeme) : Except ParseError (Statement × List Lexeme) :=
  let offset := (front stop ts).offset
  match ts with
  | ⟨.keyword .letKw, _⟩ :: rest => do
    let (x, value, rest) ← binding stop (readTerm stop) rest
    match rest with
    | ⟨.keyword .inKw, _⟩ :: rest =>
      let (body, rest) ← readTerm stop rest
      -- a `let` term after all, and the function of an application if atoms follow
      let (t, rest) ← application stop (depthFor rest) (.letIn x value body) rest
      return (⟨none, t, offset⟩, rest)
    | rest => return (⟨some x, value, offset⟩, rest)
  | ts => do
    let (t, rest) ← readTerm stop ts
    return (⟨none, t, offset⟩, rest)

/-- Reads the statements of a program.  Empty statements are passed over.  Each
    turn uses a token, so the number of tokens bounds the turns. -/
def program (stop : Nat) : Nat → List Lexeme → Except ParseError (List Statement)
  | _, [] => .ok []
  | 0, ts => refuse stop .term ts
  | turns + 1, ⟨.semi, _⟩ :: rest => program stop turns rest
  | turns + 1, ts => do
    let (s, rest) ← statement stop ts
    match rest with
    | [] => return [s]
    | rest =>
      let rest ← expect stop .semi .semi rest
      let more ← program stop turns rest
      return s :: more

end Parse

open Parse

def parseTerm (source : List Glyph) : Except ParseError Term := do
  let stop := Glyph.widths source
  let ts ← scan source
  let (t, rest) ← readTerm stop ts
  finish stop rest
  return t

def parseStatement (source : List Glyph) : Except ParseError Statement := do
  let stop := Glyph.widths source
  let ts ← scan source
  let (s, rest) ← statement stop ts
  finish stop rest
  return s

def parseProgram (source : List Glyph) : Except ParseError (List Statement) := do
  let ts ← scan source
  program (Glyph.widths source) ts.length ts

end MiniML
