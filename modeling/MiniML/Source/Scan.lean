/-
  MiniML/Source/Scan.lean
  =======================
  **Scanning** — splits a source into tokens.  An identifier begins with a letter
  and goes on with letters, digits, `_` and `'`; the lone `_` is one as well.  The
  Greek letter `λ` always is the sign of an abstraction and never part of a word.
  `#` begins a comment that ends before the next line break.

  `lexeme` reads one item at the front of a source and says how many further
  glyphs belong to it; `scanFrom` goes through the source and passes over the
  glyphs that were read.
-/
import MiniML.Source.Glyph
import MiniML.Source.Token

namespace MiniML

namespace Scan

/-- Characters that an identifier may contain after its first one. -/
def isIdentChar (c : Char) : Bool :=
  c != 'λ' && (c == '_' || c == '\'' || Text.isLetter c || Text.isDigit c)

/-- The blanks that may stand between the parentheses of `()`. -/
def isUnitBlank (c : Char) : Bool :=
  c == ' ' || c == '\t' || c == '\n' || c == '\r'

/-- The characters of a source up to the first one outside a class. -/
def run (p : Char → Bool) (gs : List Glyph) : List Char :=
  (gs.map Glyph.toChar).takeWhile p

/-- What stands at the front of a source: a token, or space between tokens, and
    the number of glyphs after the first that belong to it. -/
structure Item where
  token : Option Token
  more : Nat
deriving DecidableEq, Repr

/-- The item that begins with an opening parenthesis: the unit value if only
    blanks stand before a closing one. -/
def parenthesis (rest : List Glyph) : Item :=
  let blanks := (run isUnitBlank rest).length
  if (rest.drop blanks).head? = some (.char ')') then ⟨some .unit, blanks + 1⟩
  else ⟨some .lparen, 0⟩

def word (first : Char) (rest : List Glyph) : Except ParseFault Item :=
  let tail := run isIdentChar rest
  let text := String.ofList (first :: tail)
  match Keyword.ofText? text with
  | some k => .ok ⟨some (.keyword k), tail.length⟩
  | none =>
    -- names like `_v0` are left to the supplies
    if first = '_' ∧ tail ≠ [] then .error (.leadingUnderscore text)
    else .ok ⟨some (.ident text), tail.length⟩

def lexeme (c : Char) (rest : List Glyph) : Except ParseFault Item :=
  if Text.isSpace c then .ok ⟨none, 0⟩
  else if c = '#' then .ok ⟨none, (run (· != '\n') rest).length⟩
  else if c = '\\' ∨ c = 'λ' then .ok ⟨some (.lambda c), 0⟩
  else if c = '.' then .ok ⟨some .dot, 0⟩
  else if c = '(' then .ok (parenthesis rest)
  else if c = ')' then .ok ⟨some .rparen, 0⟩
  else if c = '=' then .ok ⟨some .equals, 0⟩
  else if c = '!' then .ok ⟨some .bang, 0⟩
  else if c = ':' then
    if rest.head? = some (.char '=') then .ok ⟨some .assign, 1⟩ else .error .loneColon
  else if c = ';' then
    if rest.head? = some (.char ';') then .ok ⟨some .semi, 1⟩ else .error .loneSemicolon
  else if Text.isAsciiDigit c then
    let digits := run Text.isAsciiDigit rest
    .ok ⟨some (.int (String.ofList (c :: digits))), digits.length⟩
  -- `λ` is a letter too, but was taken as a sign above
  else if c = '_' ∨ Text.isLetter c then word c rest
  else .error (.unexpectedChar c)

/-- The tokens of a source that begins at `offset` and whose first `skip` glyphs
    belong to an item that was read before. -/
def scanFrom : Nat → Nat → List Glyph → Except ParseError (List Lexeme)
  | _, _, [] => .ok []
  | skip + 1, offset, g :: rest => scanFrom skip (offset + g.width) rest
  | 0, offset, g :: rest =>
    match lexeme g.toChar rest with
    | .error fault => .error ⟨offset, fault⟩
    | .ok item =>
      match scanFrom item.more (offset + g.width) rest with
      | .error e => .error e
      | .ok lexemes =>
        match item.token with
        | some token => .ok (⟨token, offset⟩ :: lexemes)
        | none => .ok lexemes

end Scan

/-- The tokens of a source in order, each with its byte offset. -/
def scan (source : List Glyph) : Except ParseError (List Lexeme) :=
  Scan.scanFrom 0 0 source

end MiniML
