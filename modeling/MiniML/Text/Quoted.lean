/-
  MiniML/Text/Quoted.lean
  =======================
  **Quoted text** — the form in which reports show text taken from the input.
  The quote and the backslash are escaped by a backslash, printable characters
  stand for themselves, seven control characters have letters of their own, and
  the rest is written by its code point in two, four or eight hexadecimal digits.
-/
import MiniML.Text.CharClass
import MiniML.Text.Hex

namespace MiniML.Text

/-- The letter that stands for a control character after a backslash. -/
def escapeLetter? (c : Char) : Option Char :=
  match c.toNat with
  | 0x07 => some 'a'
  | 0x08 => some 'b'
  | 0x0C => some 'f'
  | 0x0A => some 'n'
  | 0x0D => some 'r'
  | 0x09 => some 't'
  | 0x0B => some 'v'
  | _ => none

/-- A character as it stands between two `quote`s. -/
def escape (quote c : Char) : List Char :=
  if c = quote ∨ c = '\\' then ['\\', c]
  else if isPrintable c then [c]
  else
    match escapeLetter? c with
    | some l => ['\\', l]
    | none =>
      if c.toNat < 0x80 then '\\' :: 'x' :: hexDigits 2 c.toNat
      else if c.toNat < 0x10000 then '\\' :: 'u' :: hexDigits 4 c.toNat
      else '\\' :: 'U' :: hexDigits 8 c.toNat

def quoted (s : String) : String :=
  "\"" ++ String.ofList (s.toList.flatMap (escape '"')) ++ "\""

def quotedChar (c : Char) : String :=
  "'" ++ String.ofList (escape '\'' c) ++ "'"

end MiniML.Text
