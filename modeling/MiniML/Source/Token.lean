/-
  MiniML/Source/Token.lean
  ========================
  **Tokens and parse errors** — the words of the input language, where they stand,
  and what can be wrong with a source.  An error names a cause; its wording is in
  `ParseError.message` and nowhere else.
-/
import MiniML.Text.Quoted

namespace MiniML

inductive Keyword where
  | letKw | inKw | addKw | subKw | headKw | tailKw | consKw
  | nilKw | ifzKw | ifeKw | thenKw | elseKw | fixKw | refKw
deriving DecidableEq, Repr

namespace Keyword

def all : List Keyword :=
  [.letKw, .inKw, .addKw, .subKw, .headKw, .tailKw, .consKw,
   .nilKw, .ifzKw, .ifeKw, .thenKw, .elseKw, .fixKw, .refKw]

def text : Keyword → String
  | .letKw => "let"
  | .inKw => "in"
  | .addKw => "add"
  | .subKw => "sub"
  | .headKw => "head"
  | .tailKw => "tail"
  | .consKw => "cons"
  | .nilKw => "nil"
  | .ifzKw => "ifz"
  | .ifeKw => "ife"
  | .thenKw => "then"
  | .elseKw => "else"
  | .fixKw => "fix"
  | .refKw => "ref"

def ofText? (s : String) : Option Keyword := all.find? (·.text == s)

theorem text_of_ofText? {s : String} {k : Keyword} (h : ofText? s = some k) : k.text = s := by
  have hk := List.find?_some h
  exact eq_of_beq hk

end Keyword

/-- Tokens.  The token for `λ` keeps the character it was written with, and an
    integer its digits. -/
inductive Token where
  | ident (name : String)
  | int (digits : String)
  | keyword (word : Keyword)
  | lambda (sign : Char)
  | dot
  | lparen
  | rparen
  | unit
  | equals
  | bang
  | assign
  | semi
  | eof
deriving DecidableEq, Repr

namespace Token

/-- The spelling of a token; the end of the input has none. -/
def text : Token → String
  | .ident x => x
  | .int digits => digits
  | .keyword k => k.text
  | .lambda sign => sign.toString
  | .dot => "."
  | .lparen => "("
  | .rparen => ")"
  | .unit => "()"
  | .equals => "="
  | .bang => "!"
  | .assign => ":="
  | .semi => ";;"
  | .eof => ""

/-- How an error message calls a token that was found. -/
def describe : Token → String
  | .eof => "end of input"
  | .int digits => "integer " ++ digits
  | .ident x => "identifier " ++ Text.quoted x
  | t => Text.quoted t.text

end Token

/-- A token and the byte offset at which it begins. -/
structure Lexeme where
  token : Token
  offset : Nat
deriving DecidableEq, Repr

/-- What the grammar asks for at a position. -/
inductive Expected where
  | term
  | identifier
  | endOfInput
  | dot
  | rparen
  | equals
  | semi
  | keyword (word : Keyword)
deriving DecidableEq, Repr

/-- How an error message calls what was expected. -/
def Expected.describe : Expected → String
  | .term => "term"
  | .identifier => "identifier"
  | .endOfInput => "end of input"
  | .dot => "\".\""
  | .rparen => "\")\""
  | .equals => "\"=\""
  | .semi => "\";;\""
  | .keyword k => Text.quoted k.text

inductive ParseFault where
  /-- A colon without an equals sign after it. -/
  | loneColon
  /-- A semicolon that is not doubled. -/
  | loneSemicolon
  /-- A word that begins with an underscore and goes on. -/
  | leadingUnderscore (word : String)
  | unexpectedChar (c : Char)
  /-- An integer literal above the largest 64-bit integer. -/
  | intOutOfRange (digits : String)
  | unexpected (wanted : Expected) (found : Token)
deriving DecidableEq, Repr

def ParseFault.message : ParseFault → String
  | .loneColon => "expected \":=\""
  | .loneSemicolon => "expected \";;\""
  | .leadingUnderscore w => "identifiers may not begin with \"_\": " ++ Text.quoted w
  | .unexpectedChar c => "unexpected character " ++ Text.quotedChar c
  | .intOutOfRange digits => "integer out of range: " ++ digits
  | .unexpected wanted found => "expected " ++ wanted.describe ++ ", found " ++ found.describe

/-- A fault and the byte offset at which it was found. -/
structure ParseError where
  offset : Nat
  fault : ParseFault
deriving DecidableEq, Repr

def ParseError.message (e : ParseError) : String :=
  "parse error at offset " ++ toString e.offset ++ ": " ++ e.fault.message

end MiniML
