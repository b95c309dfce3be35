/-
  MiniML/Settings/Yaml/Scan.lean
  ==============================
  **Scanning YAML** — from characters to tokens.  Indentation opens and closes block
  collections.  Whether something is a key is only known at the colon behind it, so
  the place of a possible key is kept, one for each level of flow collections, and
  the token that makes it a key is put in afterwards.  A key and its colon stand on
  one line, at most 1024 characters apart.

  Scanning goes on to the end of a text or to the first fault.  A fault does not
  make everything before it void: readers look only a few tokens ahead.
-/
import MiniML.Settings.Yaml.Scalar

namespace MiniML.Yaml

/-- A place at which a key may have begun. -/
structure PendingKey where
  /-- Whether anything but a key would be wrong here. -/
  required : Bool
  /-- The number of tokens before it. -/
  token : Nat
  line : Nat
  column : Nat
deriving DecidableEq, Repr

structure Scanning where
  place : Cursor
  tokens : List Token := []
  /-- The least column at which the innermost block collection goes on inside: one
      more than its own. -/
  margin : Nat := 0
  /-- The margins of the block collections around it. -/
  margins : List Nat := []
  /-- The possible key on the innermost level. -/
  pending : Option PendingKey := none
  /-- The possible keys on the levels around it, one for each flow collection. -/
  outer : List (Option PendingKey) := []
  /-- Whether a key may begin here. -/
  keyAllowed : Bool := true
deriving DecidableEq, Repr

namespace Scanning

def inFlow (s : Scanning) : Bool := !s.outer.isEmpty

def rest (s : Scanning) : List Char := s.place.rest

def column (s : Scanning) : Nat := s.place.column

def pass (n : Nat) (s : Scanning) : Scanning := { s with place := s.place.pass n }

def emit (t : Token) (s : Scanning) : Scanning := { s with tokens := s.tokens ++ [t] }

/-- The state in which keys may or may not begin. -/
def allow (b : Bool) (s : Scanning) : Scanning := { s with keyAllowed := b }

/-! ### Possible keys -/

/-- Whether a possible key lies too far back. -/
def isStale (s : Scanning) (k : PendingKey) : Bool :=
  k.line < s.place.line || k.column + 1024 < s.column

/-- Gives up the possible key of the innermost level. -/
def dropKey (s : Scanning) : Option Scanning :=
  if s.pending.any (·.required) then none else some { s with pending := none }

/-- Keeps this place as a possible key, if one may begin here. -/
def saveKey (s : Scanning) : Option Scanning :=
  if s.keyAllowed then
    s.dropKey.map fun t =>
      { t with pending := some ⟨!s.inFlow && s.margin == s.column + 1, s.tokens.length,
          s.place.line, s.column⟩ }
  else some s

/-! ### Block collections -/

/-- Opens a block collection at a column that is not inside the innermost one; its
    token is put at the given place. -/
def indent (s : Scanning) (column : Nat) (t : Token) (index : Nat) : Scanning :=
  if !s.inFlow && s.margin ≤ column then
    { s with margin := column + 1, margins := s.margin :: s.margins,
             tokens := s.tokens.insertIdx index t }
  else s

/-- Closes block collections until the margin is at most `least`. -/
def closeTo (least : Nat) : List Nat → Scanning → Scanning
  | [], s => s
  | m :: ms, s =>
    if least < s.margin then closeTo least ms { s.emit .blockEnd with margin := m, margins := ms }
    else s

/-- Closes the block collections that do not reach to a margin. -/
def outdent (s : Scanning) (least : Nat) : Scanning :=
  if s.inFlow then s else closeTo least s.margins s

/-! ### White space and comments -/

def lineLength (s : Scanning) : Nat := (s.rest.takeWhile fun c => !isBreak c).length

/-- Passes over a comment and over those that follow with nothing but white space in
    between. -/
def passComments : Nat → Scanning → Scanning
  | 0, s => s
  | fuel + 1, s =>
    let t := s.pass s.lineLength
    let gap := (t.rest.takeWhile fun c => isBlank c || c == '\n').length
    if (t.rest.drop gap).head? == some '#' then passComments fuel (t.pass gap) else t

/-- Passes over white space and comments.  A tab may not stand where a key may
    begin, and outside flow collections one may begin on every line. -/
def passSpace : Nat → Scanning → Scanning
  | 0, s => s
  | fuel + 1, s =>
    match s.rest with
    | [] => s
    | c :: _ =>
      if c == ' ' || (c == '\t' && (s.inFlow || !s.keyAllowed)) then passSpace fuel (s.pass 1)
      else if c == '#' then passSpace fuel (s.passComments s.rest.length)
      -- on a new line a key may begin again
      else if isBreak c then passSpace fuel ((s.pass 1).allow (s.keyAllowed || !s.inFlow))
      else s

/-- Passes over a comment on the line of the token that was read last. -/
def passLineComment (s : Scanning) : Scanning :=
  let blanks := (s.rest.takeWhile isBlank).length
  if (s.rest.drop blanks).head? == some '#' then s.pass s.lineLength else s

/-! ### Directives -/

def versionNumber? (cs : List Char) : Option (Nat × List Char) :=
  let digits := cs.takeWhile Char.isDigit
  if digits = [] ∨ digits.length > 2 then none
  else some (digits.foldl (fun n c => 10 * n + (c.toNat - 0x30)) 0, cs.drop digits.length)

/-- Characters that may stand in a tag as they are. -/
def isTagChar (c : Char) : Bool := isNameChar c || ";/?:@&=+$,.!~*'()[]".toList.contains c

/-- The byte that two hexadecimal digits behind a percent sign stand for. -/
def percentByte? : List Char → Option (Nat × List Char)
  | '%' :: d :: e :: rest => do return (16 * (← Text.hexValue? d) + (← Text.hexValue? e), rest)
  | _ => none

/-- Passes over `n` continuation bytes. -/
def continuation? : Nat → List Char → Option (List Char)
  | 0, cs => some cs
  | n + 1, cs => do
    let (b, rest) ← percentByte? cs
    if 0x80 ≤ b ∧ b < 0xC0 then continuation? n rest else none

/-- Reads the characters of a tag.  One outside ASCII is only known to be none. -/
def tagChars : Nat → List Char → Option (List Char × List Char)
  | 0, cs => some ([], cs)
  | fuel + 1, cs =>
    match cs with
    | [] => some ([], [])
    | c :: rest =>
      if c == '%' then do
        let (b, rest) ← percentByte? cs
        if b < 0x80 then do
          let (more, rest) ← tagChars fuel rest
          return (Char.ofNat b :: more, rest)
        else if b < 0xC0 ∨ 0xF8 ≤ b then none
        else do
          let rest ← continuation? (if b < 0xE0 then 1 else if b < 0xF0 then 2 else 3) rest
          let (more, rest) ← tagChars fuel rest
          return (Char.ofNat 0xFFFD :: more, rest)
      else if isTagChar c then do
        let (more, rest) ← tagChars fuel rest
        return (c :: more, rest)
      else some ([], cs)

/-- Reads what may be a handle: an exclamation mark, a name, and possibly another
    mark. -/
def tagHandle? : List Char → Option (List Char × List Char)
  | '!' :: rest =>
    let name := rest.takeWhile isNameChar
    let after := rest.drop name.length
    if after.head? = some '!' then some ('!' :: name ++ ['!'], after.tail)
    else some ('!' :: name, after)
  | _ => none

/-- Reads the value of a version directive. -/
def versionDirective? (cs : List Char) : Option (Token × List Char) := do
  let (major, rest) ← versionNumber? (cs.dropWhile isBlank)
  match rest with
  | '.' :: rest => do
    let (minor, rest) ← versionNumber? rest
    return (.version major minor, rest)
  | _ => none

/-- Reads the value of a directive for a handle. -/
def handleDirective? (cs : List Char) : Option (Token × List Char) := do
  let (name, rest) ← tagHandle? (cs.dropWhile isBlank)
  if name ≠ ['!'] ∧ (name.length < 2 ∨ name.getLast? ≠ some '!') then none
  else if !rest.head?.any isBlank then none
  else do
    let cs := rest.dropWhile isBlank
    let (stem, rest) ← tagChars cs.length cs
    if stem = [] ∨ !atSpace rest then none
    else return (.handle (String.ofList name) (String.ofList stem), rest)

/-- Reads a directive behind its percent sign. -/
def directive? (cs : List Char) : Option (Token × List Char) :=
  let name := cs.takeWhile isNameChar
  let rest := cs.drop name.length
  if !atSpace rest then none
  else if name = "YAML".toList then versionDirective? rest
  else if name = "TAG".toList then handleDirective? rest
  else none

def directive (s : Scanning) : Option Scanning := do
  let s ← (s.outdent 0).dropKey
  let (t, rest) ← directive? s.rest.tail
  let s := s.pass (s.rest.length - rest.length)
  let s := s.pass (s.rest.takeWhile isBlank).length
  let s := if s.rest.head? == some '#' then s.pass s.lineLength else s
  if atBreak s.rest then return ((s.pass 1).allow false).emit t else none

/-- Scans a line that begins or ends a document. -/
def documentMark (t : Token) (s : Scanning) : Option Scanning := do
  let s ← (s.outdent 0).dropKey
  return ((s.pass 3).allow false).emit t

/-! ### Marks of collections -/

def openFlow (t : Token) (s : Scanning) : Option Scanning := do
  let s ← s.saveKey
  let s := { s with outer := s.pending :: s.outer, pending := none }
  return (((s.pass 1).allow true).emit t).passLineComment

def closeFlow (t : Token) (s : Scanning) : Option Scanning := do
  let s ← s.dropKey
  let s := match s.outer with
    | [] => s
    | k :: ks => { s with pending := k, outer := ks }
  return (((s.pass 1).allow false).emit t).passLineComment

def comma (s : Scanning) : Option Scanning := do
  let s ← s.dropKey
  return (((s.pass 1).allow true).emit .flowEntry).passLineComment

def dash (s : Scanning) : Option Scanning := do
  if !s.inFlow && !s.keyAllowed then none
  else do
    let s ← (s.indent s.column .blockSequenceStart s.tokens.length).dropKey
    return ((s.pass 1).allow true).emit .blockEntry

def question (s : Scanning) : Option Scanning := do
  if !s.inFlow && !s.keyAllowed then none
  else do
    let s ← (s.indent s.column .blockMappingStart s.tokens.length).dropKey
    return (((s.pass 1).allow (!s.inFlow)).emit .key).passLineComment

/-- Scans a colon.  If a key is possible before it, that becomes one now. -/
def colon (s : Scanning) : Option Scanning :=
  let plainColon (s : Scanning) : Option Scanning :=
    if !s.inFlow && !s.keyAllowed then none
    else
      let s := s.indent s.column .blockMappingStart s.tokens.length
      some (((s.pass 1).allow (!s.inFlow)).emit .value).passLineComment
  match s.pending with
  | none => plainColon s
  | some k =>
    if s.isStale k then
      -- the key lies too far back, so the colon stands for itself
      if k.required then none else plainColon { s with pending := none }
    else
      -- the tokens since then belong to a key, and a mapping may begin in front of it
      let s := { s with tokens := s.tokens.insertIdx k.token .key, pending := none }
      let s := s.indent k.column .blockMappingStart k.token
      some (((s.pass 1).allow false).emit .value).passLineComment

/-! ### Nodes -/

def name (token : String → Token) (s : Scanning) : Option Scanning := do
  let s ← s.saveKey
  let name := s.rest.tail.takeWhile isNameChar
  let s := (s.pass (1 + name.length)).allow false
  let ends (c : Char) : Bool := isSpace c || "?:,]\x7d%@".toList.contains c || c.toNat == 0x60
  if name ≠ [] ∧ s.rest.head?.all ends then
    return (s.emit (token (String.ofList name))).passLineComment
  else none

/-- Reads a tag behind its first exclamation mark. -/
def tag? (cs : List Char) : Option (Token × List Char) :=
  match cs with
  | '!' :: '<' :: rest => do
    let (uri, rest) ← tagChars rest.length rest
    match rest with
    | '>' :: rest => if uri = [] then none else return (.tag "" (String.ofList uri), rest)
    | _ => none
  | _ => do
    let (handle, rest) ← tagHandle? cs
    let (suffix, rest) ← tagChars rest.length rest
    if 2 ≤ handle.length ∧ handle.getLast? = some '!' then
      if suffix = [] then none
      else return (.tag (String.ofList handle) (String.ofList suffix), rest)
    else
      match handle.tail ++ suffix with
      | [] => return (.tag "" "!", rest)
      | suffix => return (.tag "!" (String.ofList suffix), rest)

def tag (s : Scanning) : Option Scanning := do
  let s ← s.saveKey
  let (t, rest) ← tag? s.rest
  if atSpace rest then
    return (((s.pass (s.rest.length - rest.length)).allow false).emit t).passLineComment
  else none

def block (folds : Bool) (s : Scanning) : Option Scanning := do
  let s ← s.dropKey
  let l ← blockScalar folds s.margin (s.place.pass 1)
  return { (s.allow true).emit (.scalar (String.ofList l.text) false) with place := l.after }

def quoted (quote : Char) (s : Scanning) : Option Scanning := do
  let s ← s.saveKey
  let l ← quotedScalar quote (s.place.pass 1)
  let s := (s.allow false).emit (.scalar (String.ofList l.text) false)
  return { s with place := l.after }.passLineComment

def plain (s : Scanning) : Option Scanning := do
  let s ← s.saveKey
  let l ← plainScalar s.inFlow s.margin s.place
  let s := (s.allow l.onNewLine).emit (.scalar (String.ofList l.text) true)
  let s := { s with place := l.after }
  return if l.onNewLine then s else s.passLineComment

/-- Whether a plain scalar can begin with a character.  A dash, a question mark and
    a colon need something behind them, the latter two also that no flow collection
    is open. -/
def startsPlain (s : Scanning) (c : Char) (rest : List Char) : Bool :=
  !(isSpace c || isIndicator c) || (c == '-' && !atSpace rest) ||
    (!s.inFlow && (c == '?' || c == ':') && !atSpace rest)

/-- Scans one token that begins with the character `c`. -/
def token (s : Scanning) (c : Char) (rest : List Char) : Option Scanning :=
  if s.column == 0 && c == '%' then s.directive
  else if s.column == 0 && hasMark '-' (c :: rest) then s.documentMark .documentStart
  else if s.column == 0 && hasMark '.' (c :: rest) then s.documentMark .documentEnd
  else if c == '[' then s.openFlow .flowSequenceStart
  else if c == '\x7b' then s.openFlow .flowMappingStart
  else if c == ']' then s.closeFlow .flowSequenceEnd
  else if c == '\x7d' then s.closeFlow .flowMappingEnd
  else if c == ',' then s.comma
  else if c == '-' && atSpace rest then s.dash
  else if c == '?' && (s.inFlow || atSpace rest) then s.question
  else if c == ':' && (s.inFlow || atSpace rest) then s.colon
  else if c == '*' then s.name .alias
  else if c == '&' then s.name .anchor
  else if c == '!' then s.tag
  else if c == '|' && !s.inFlow then s.block false
  else if c == '>' && !s.inFlow then s.block true
  else if c == '\'' || c == '"' then s.quoted c
  else if s.startsPlain c rest then s.plain
  else none

/-- The numbers of the tokens that may still turn out to be keys. -/
def openKeys (s : Scanning) : List Nat :=
  ((s.pending :: s.outer).filterMap id).filterMap fun k =>
    if k.required || !s.isStale k then some k.token else none

end Scanning

/-- The tokens of a text, up to its end or to a fault. -/
structure Scanned where
  tokens : List Token
  /-- In case of a fault, the numbers of the tokens that might have become keys
      behind it. -/
  fault : Option (List Nat) := none
deriving DecidableEq, Repr

/-- Scans from a state on.  Every token has at least one character, so that the
    number of characters bounds the number of steps. -/
def scanFrom : Nat → Scanning → Scanned
  | 0, s => ⟨s.tokens, some s.openKeys⟩
  | fuel + 1, s =>
    let t := s.passSpace s.rest.length
    match t.rest with
    | [] =>
      match (t.outdent 0).dropKey with
      | some t => ⟨t.tokens ++ [.streamEnd], none⟩
      | none => ⟨s.tokens, some s.openKeys⟩
    | c :: rest =>
      match (t.outdent (t.column + 1)).token c rest with
      | some t => scanFrom fuel t
      | none => ⟨s.tokens, some s.openKeys⟩

def scan (cs : List Char) : Scanned := scanFrom (cs.length + 1) { place := ⟨cs, 0, 0⟩ }

/-- Whether a reader that has read `count` tokens runs into the fault of a scan: it
    looks two tokens ahead of the next one, and further as long as that may be a
    key. -/
def Scanned.meetsFault (s : Scanned) (count : Nat) : Bool :=
  match s.fault with
  | none => false
  | some keys => s.tokens.length < count + 3 || keys.any (· ≤ count)

end MiniML.Yaml
