/-
  MiniML/Settings/Yaml/Token.lean
  ===============================
  **The tokens of YAML** — marks of documents and collections, keys and values,
  anchors, aliases, tags and scalars.  In block collections the structure comes
  from indentation alone; there the tokens say where a collection begins and ends.
-/

namespace MiniML.Yaml

inductive Token where
  | version (major minor : Nat)
  /-- A handle and what it stands for in tags. -/
  | handle (name stem : String)
  | documentStart
  | documentEnd
  | streamEnd
  | blockSequenceStart
  | blockMappingStart
  | blockEnd
  | flowSequenceStart
  | flowSequenceEnd
  | flowMappingStart
  | flowMappingEnd
  | blockEntry
  | flowEntry
  | key
  | value
  | alias (name : String)
  | anchor (name : String)
  /-- A tag; with an empty handle, the suffix is the whole of it. -/
  | tag (handle suffix : String)
  /-- A scalar and whether it was written without quotes. -/
  | scalar (text : String) (plain : Bool)
deriving DecidableEq, Repr

/-! ### Characters -/

def isBlank (c : Char) : Bool := c == ' ' || c == '\t'

/-- Line breaks: the line feed, the next-line character and the separators of
    Unicode.  There is no carriage return left when a text is scanned. -/
def isBreak (c : Char) : Bool :=
  c == '\n' || c.toNat == 0x85 || c.toNat == 0x2028 || c.toNat == 0x2029

/-- What a line break stands for in a scalar: the next-line character is a line
    feed, and the separators stand for themselves. -/
def breakChar (c : Char) : Char := if c.toNat = 0x85 then '\n' else c

def isSpace (c : Char) : Bool := isBlank c || isBreak c

/-- Whether a text is at its end or goes on with white space. -/
def atSpace (cs : List Char) : Bool := cs.head?.all isSpace

/-- Whether a text is at its end or goes on with a line break. -/
def atBreak (cs : List Char) : Bool := cs.head?.all isBreak

/-- Characters of anchors and handles. -/
def isNameChar (c : Char) : Bool := c.isAlphanum || c == '_' || c == '-'

def isFlowMark (c : Char) : Bool :=
  c == ',' || c == '?' || c == '[' || c == ']' || c == '\x7b' || c == '\x7d'

/-- Characters that cannot begin a plain scalar, or only before a character that is
    no white space. -/
def isIndicator (c : Char) : Bool :=
  isFlowMark c || c == '-' || c == ':' || c == '#' || c == '&' || c == '*' || c == '!' ||
    c == '|' || c == '>' || c == '\'' || c == '"' || c == '%' || c == '@' || c.toNat == 0x60

/-- Whether a line begins with a mark of three characters and nothing right behind
    it. -/
def hasMark (mark : Char) (cs : List Char) : Bool :=
  [mark, mark, mark].isPrefixOf cs && atSpace (cs.drop 3)

/-- Whether a line begins or ends a document. -/
def atDocumentMark (cs : List Char) : Bool := hasMark '-' cs || hasMark '.' cs

/-! ### Texts that can be scanned -/

/-- Characters that a document may hold. -/
def isAllowed (c : Char) : Bool :=
  let n := c.toNat
  n == 0x09 || n == 0x0A || n == 0x0D || (0x20 ≤ n && n ≤ 0x7E) || n == 0x85 ||
    (0xA0 ≤ n && n ≤ 0xD7FF) || (0xE000 ≤ n && n ≤ 0xFFFD) || 0x10000 ≤ n

/-- A carriage return, and a line feed behind it, become one line feed. -/
def unifyBreaks : List Char → List Char
  | [] => []
  | c :: rest =>
    if c == '\r' then
      match rest with
      | '\n' :: rest => '\n' :: unifyBreaks rest
      | rest => '\n' :: unifyBreaks rest
    else c :: unifyBreaks rest

/-- The characters to scan, if all of them are allowed.  A byte order mark at the
    beginning is none of them. -/
def scannable? (cs : List Char) : Option (List Char) :=
  let cs := if cs.head? = some (Char.ofNat 0xFEFF) then cs.tail else cs
  if cs.all isAllowed then some (unifyBreaks cs) else none

end MiniML.Yaml
