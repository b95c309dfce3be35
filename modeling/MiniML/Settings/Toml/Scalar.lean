/-
  MiniML/Settings/Toml/Scalar.lean
  ================================
  **The scalars of TOML** — texts in four forms, integers, floats, truth values,
  dates and times of day.  Only texts, integers and truth values can be settings;
  of the others nothing is kept but that they are well formed.

  All readers take the characters from the scalar on, and return it with the rest.
  Control characters are no concern here: a text that holds one is refused before
  anything of it is read.
-/
import MiniML.Text.Decimal
import MiniML.Text.Moment

namespace MiniML.Toml

/-- Values, as far as settings can use them. -/
inductive Value where
  | text (s : String)
  | integer (n : Int64)
  | boolean (b : Bool)
  /-- A float, a date, a time of day or an array. -/
  | other
deriving DecidableEq, Repr

/-! ### Characters -/

def isBlank (c : Char) : Bool := c == ' ' || c == '\t'

def isNewline (c : Char) : Bool := c == '\n' || c == '\r'

def isDecimal (c : Char) : Bool := '0' ≤ c && c ≤ '9'

def isHex (c : Char) : Bool := (Text.hexValue? c).isSome

def isAsciiLetter (c : Char) : Bool := ('a' ≤ c && c ≤ 'z') || ('A' ≤ c && c ≤ 'Z')

/-! ### Texts -/

def escaped? : Char → Option Char
  | 'b' => some (Char.ofNat 0x08)
  | 't' => some '\t'
  | 'n' => some '\n'
  | 'f' => some (Char.ofNat 0x0C)
  | 'r' => some '\r'
  | 'e' => some (Char.ofNat 0x1B)
  | '"' => some '"'
  | '\\' => some '\\'
  | _ => none

/-- What was read and what is left, with a character put in front of the former. -/
def push (c : Char) (r : List Char × List Char) : List Char × List Char := (c :: r.1, r.2)

/-- What stands before the closing quote of a text on one line, and what stands
    after it.  In a text with escapes a backslash protects the character after it. -/
def untilQuote (quote : Char) (escapes : Bool) : List Char → Option (List Char × List Char)
  | [] => none
  | c :: rest =>
    if c == quote then some ([], rest)
    else if isNewline c then none
    else if escapes && c == '\\' then
      match rest with
      | d :: rest =>
        if isNewline d then none
        else (untilQuote quote escapes rest).map fun r => push c (push d r)
      | [] => none
    else (untilQuote quote escapes rest).map (push c)

/-- The same for a text that three quotes close.  Two more of them may belong to
    the text, and three after an escaped backslash, which is what `most` says. -/
def untilQuotes (quote : Char) (escapes : Bool) (most : Nat) :
    List Char → Option (List Char × List Char)
  | [] => none
  | c :: rest =>
    if (c :: rest).take 3 == [quote, quote, quote] then
      let more := ((c :: rest).takeWhile (· == quote)).length - 3
      if more ≤ most then some (List.replicate more quote, rest.drop (2 + more)) else none
    else if escapes && c == '\\' then
      match rest with
      | d :: rest =>
        (untilQuotes quote escapes (if d == '\\' then 3 else 2) rest).map fun r =>
          push c (push d r)
      | [] => none
    else (untilQuotes quote escapes 2 rest).map (push c)

/-- Resolves the escapes of a text.  A backslash at the end of a line joins the
    line to the next character that is not white space. -/
def unescape (skipping : Bool) : List Char → Option (List Char)
  | [] => some []
  | c :: rest =>
    if skipping && (isBlank c || isNewline c) then unescape true rest
    else if c == '\\' then
      if (rest.dropWhile isBlank).head?.any isNewline then unescape true rest
      else
        match rest with
        | 'x' :: d :: e :: rest => do
          return (← Text.charOfHex? [d, e]) :: (← unescape false rest)
        | 'u' :: d :: e :: f :: g :: rest => do
          return (← Text.charOfHex? [d, e, f, g]) :: (← unescape false rest)
        | 'U' :: d :: e :: f :: g :: h :: i :: j :: k :: rest => do
          return (← Text.charOfHex? [d, e, f, g, h, i, j, k]) :: (← unescape false rest)
        | l :: rest => do
          return (← escaped? l) :: (← unescape false rest)
        | [] => none
    else (unescape false rest).map (c :: ·)

/-- Finishes a text whose characters are known. -/
def finish (escapes : Bool) (r : List Char × List Char) : Option (String × List Char) := do
  let body ← if escapes then unescape false r.1 else some r.1
  return (String.ofList body, r.2)

def shortText : List Char → Option (String × List Char)
  | '"' :: rest => (untilQuote '"' true rest).bind (finish true)
  | '\'' :: rest => (untilQuote '\'' false rest).bind (finish false)
  | _ => none

/-- A line break right after the opening quotes is no part of a text. -/
def skipBreak : List Char → List Char
  | '\n' :: rest => rest
  | '\r' :: '\n' :: rest => rest
  | rest => rest

def text (cs : List Char) : Option (String × List Char) :=
  match cs with
  | '"' :: '"' :: '"' :: rest => (untilQuotes '"' true 2 (skipBreak rest)).bind (finish true)
  | '\'' :: '\'' :: '\'' :: rest =>
    (untilQuotes '\'' false 2 (skipBreak rest)).bind (finish false)
  | _ => shortText cs

/-! ### Integers and floats -/

/-- Whether a text ends in a digit and each of its underscores follows one;
    `follows` tells whether the character before the text is a digit. -/
def underscored (follows : Bool) : List Char → Bool
  | [] => follows
  | c :: rest => (c != '_' || follows) && underscored (isHex c) rest

/-- Whether a number begins with a superfluous zero, behind its sign if it has one. -/
def hasLeadingZero : List Char → Bool
  | '0' :: c :: _ => !(c == 'b' || c == 'o' || c == 'x')
  | sign :: '0' :: _ :: _ => sign == '+' || sign == '-'
  | _ => false

def integer? (word : List Char) : Option Value :=
  if underscored false word && !hasLeadingZero word then
    (readInt64 (String.ofList word)).toOption.map .integer
  else none

/-- The parts of a float: what stands between its points and the marks of its
    exponent. -/
def floatParts (word : List Char) : List (List Char) :=
  ((word.map fun c => if c == 'e' || c == 'E' then '.' else c).splitOn '.').filter (· ≠ [])

/-- Whether each point is followed by a digit. -/
def pointsOk : List Char → Bool
  | [] => true
  | c :: rest => (c != '.' || rest.head?.any isDecimal) && pointsOk rest

/-- Whether a word with a point or an exponent is a float, and not too large for
    one. -/
def isFloat (word : List Char) : Bool :=
  (floatParts word).all (underscored false) &&
    !(floatParts word).head?.any hasLeadingZero && pointsOk word &&
    (Decimal.whole? (Decimal.joined word)).isSome

/-! ### Dates and times of day -/

def layouts : List (List MomentField) :=
  let long := Moment.date true ++ [.mark 'T'] ++ Moment.time true
  let short := Moment.date true ++ [.mark 'T'] ++ Moment.shortTime true
  [long ++ [.zone], long, Moment.date true, Moment.time true,
   short ++ [.zone], short, Moment.shortTime true]

/-- The marks of a date are upper case, and a blank may stand for the one before the
    time of day. -/
def dateMark (c : Char) : Char :=
  if c == 't' || c == ' ' then 'T' else if c == 'z' then 'Z' else c

def isMoment (word : List Char) : Bool :=
  let trimmed := (word.reverse.dropWhile (· == ' ')).reverse
  Moment.fitsAny layouts (trimmed.map dateMark)

/-! ### Words -/

/-- A float if `ok` holds. -/
def otherIf (ok : Bool) (rest : List Char) : Option (Value × List Char) :=
  if ok then some (.other, rest) else none

/-- Reads a float, of which the first `n` characters are known to be part. -/
def float (n : Nat) (cs : List Char) : Option (Value × List Char) :=
  let more := (cs.drop n).takeWhile fun c =>
    isDecimal c || c == '_' || c == '.' || c == '-' || c == '+' || c == 'e' || c == 'E'
  otherIf (isFloat (cs.take n ++ more)) (cs.drop (n + more.length))

def moment (cs : List Char) : Option (Value × List Char) :=
  let word := cs.takeWhile fun c =>
    isDecimal c || c == '-' || c == ':' || c == 'T' || c == 't' || c == ' ' || c == '.' ||
      c == 'Z' || c == 'z' || c == '+'
  otherIf (isMoment word) (cs.drop word.length)

def integer (n : Nat) (cs : List Char) : Option (Value × List Char) :=
  (integer? (cs.take n)).map (·, cs.drop n)

/-- Reads a decimal number, behind its sign if `n` is one. -/
def decimalNumber (n : Nat) (cs : List Char) : Option (Value × List Char) :=
  let digits := n + ((cs.drop n).takeWhile fun c => isDecimal c || c == '_').length
  match (cs.drop digits).head? with
  | some '.' | some 'e' | some 'E' => float digits cs
  | _ => integer digits cs

/-- The digits that may follow a zero and the letter of a base. -/
def baseDigits? : List Char → Option (Char → Bool)
  | '0' :: 'b' :: _ => some fun c => c == '0' || c == '1'
  | '0' :: 'o' :: _ => some fun c => '0' ≤ c && c ≤ '7'
  | '0' :: 'x' :: _ => some isHex
  | _ => none

/-- Reads a number or a date that begins with a digit. -/
def numberOrMoment (cs : List Char) : Option (Value × List Char) :=
  match baseDigits? cs with
  | some isDigit =>
    if (cs.drop 2).head?.any isDigit then
      integer (2 + ((cs.drop 2).takeWhile fun c => isDigit c || c == '_').length) cs
    else none
  | none =>
    let digits := (cs.takeWhile isDecimal).length
    match (cs.drop digits).head? with
    | some '-' | some ':' =>
      -- nothing but another digit can follow a zero in a date
      if digits = 1 ∧ cs.head? = some '0' then integer 1 cs else moment cs
    | _ => decimalNumber 0 cs

def noNumber : List Char → Option (Value × List Char)
  | 'i' :: 'n' :: 'f' :: rest => some (.other, rest)
  | 'n' :: 'a' :: 'n' :: rest => some (.other, rest)
  | _ => none

/-- Reads a number behind its sign, which only decimal numbers can have. -/
def signedNumber (cs : List Char) : Option (Value × List Char) :=
  match noNumber cs.tail with
  | some r => some r
  | none =>
    if (baseDigits? cs.tail).isSome then none
    else if cs.tail.head?.any isDecimal then decimalNumber 1 cs
    else none

def truth (cs : List Char) : Option (Value × List Char) :=
  let word := cs.takeWhile isAsciiLetter
  if word = "true".toList then some (.boolean true, cs.drop 4)
  else if word = "false".toList then some (.boolean false, cs.drop 5)
  else none

def scalar (cs : List Char) : Option (Value × List Char) :=
  match cs with
  | [] => none
  | c :: _ =>
    if c == '"' || c == '\'' then (text cs).map fun r => (.text r.1, r.2)
    else if isDecimal c then numberOrMoment cs
    else if c == '+' || c == '-' then signedNumber cs
    else if c == 'i' || c == 'n' then noNumber cs
    else truth cs

end MiniML.Toml
