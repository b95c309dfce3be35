/-
  MiniML/Settings/Yaml/Scalar.lean
  ================================
  **The scalars of YAML as they are written** — plain, in single or double quotes,
  and as blocks.  A scalar may go on over several lines.  In all forms but the
  literal block a line break between two lines becomes a blank, and of several
  breaks in a row the first is dropped; a separator of Unicode is kept as it is.
-/
import MiniML.Settings.Yaml.Token
import MiniML.Text.Hex

namespace MiniML.Yaml

structure Cursor where
  rest : List Char
  line : Nat := 0
  column : Nat := 0
deriving DecidableEq, Repr

def Cursor.pass : Nat → Cursor → Cursor
  | 0, p => p
  | n + 1, p =>
    match p.rest with
    | [] => p
    | c :: rest =>
      Cursor.pass n (if isBreak c then ⟨rest, p.line + 1, 0⟩ else ⟨rest, p.line, p.column + 1⟩)

structure Lexeme where
  text : List Char
  /-- Whether the place lies at the beginning of another line. -/
  onNewLine : Bool
  after : Cursor
deriving DecidableEq, Repr

/-! ### White space inside scalars -/

/-- White space between two pieces of a scalar, the last character first: blanks on
    one line, or line breaks with the first of them apart.  There is no first one
    behind an escaped line break. -/
inductive Gap where
  | blanks (cs : List Char)
  | breaks (first : Option Char) (more : List Char)
deriving DecidableEq, Repr

namespace Gap

def add (c : Char) : Gap → Gap
  | .blanks cs => if isBreak c then .breaks (some (breakChar c)) [] else .blanks (c :: cs)
  | .breaks first more =>
    if isBreak c then .breaks first (breakChar c :: more) else .breaks first more

def isBroken : Gap → Bool
  | .blanks _ => false
  | .breaks _ _ => true

/-- What a gap stands for in the scalar, the last character first. -/
def folded : Gap → List Char
  | .blanks cs => cs
  | .breaks none more => more
  | .breaks (some c) more =>
    -- a single line feed becomes a blank, and the first of several is lost
    if c = '\n' then (if more = [] then [' '] else more) else more ++ [c]

end Gap

/-! ### Plain scalars -/

/-- Whether a plain scalar ends here: at a colon before white space, and inside a
    flow collection also at one of its marks. -/
def endsPlain (inFlow : Bool) (c : Char) (rest : List Char) : Bool :=
  (c == ':' && atSpace rest) || (inFlow && isFlowMark c)

/-- Whether a plain scalar that was interrupted by white space does not go on here:
    the line is indented by too little, begins or ends a document, or is a comment. -/
def abandonsPlain (inFlow : Bool) (margin column : Nat) (cs : List Char) : Bool :=
  (!inFlow && column < margin) || (column == 0 && atDocumentMark cs) || cs.head? == some '#'

/-- Reads on in a plain scalar.  `done` is what was read so far, the last character
    first, and `afresh` tells whether white space was read after it.  A tab that
    stands for indentation is refused. -/
def plainFrom (inFlow : Bool) (margin : Nat) (done : List Char) (gap : Gap) (afresh : Bool)
    (line column : Nat) : List Char → Option Lexeme
  | [] => some ⟨done.reverse, gap.isBroken, ⟨[], line, column⟩⟩
  | c :: rest =>
    if isBreak c then plainFrom inFlow margin done (gap.add c) true (line + 1) 0 rest
    else if isBlank c then
      -- a tab that stands for indentation
      if gap.isBroken && c == '\t' && column < margin then none
      else plainFrom inFlow margin done (gap.add c) true line (column + 1) rest
    else if (afresh && abandonsPlain inFlow margin column (c :: rest)) ||
        endsPlain inFlow c rest then
      some ⟨done.reverse, gap.isBroken, ⟨c :: rest, line, column⟩⟩
    else
      plainFrom inFlow margin (c :: (gap.folded ++ done)) (.blanks []) false line (column + 1) rest

def plainScalar (inFlow : Bool) (margin : Nat) (p : Cursor) : Option Lexeme :=
  plainFrom inFlow margin [] (.blanks []) false p.line p.column p.rest

/-! ### Quoted scalars -/

/-- Reads on in a scalar between single quotes, which are written twice inside it. -/
def singleFrom (done : List Char) (gap : Gap) (line column : Nat) : List Char → Option Lexeme
  | [] => none
  | c :: rest =>
    if isBreak c then singleFrom done (gap.add c) (line + 1) 0 rest
    else if isBlank c then singleFrom done (gap.add c) line (column + 1) rest
    else if column == 0 && atDocumentMark (c :: rest) then none
    else
      let done := gap.folded ++ done
      if c == '\'' then
        match rest with
        | '\'' :: rest => singleFrom ('\'' :: done) (.blanks []) line (column + 2) rest
        | rest => some ⟨done.reverse, false, ⟨rest, line, column + 1⟩⟩
      else singleFrom (c :: done) (.blanks []) line (column + 1) rest

/-- The character that a letter stands for after a backslash. -/
def escaped? : Char → Option Char
  | '0' => some (Char.ofNat 0)
  | 'a' => some (Char.ofNat 0x07)
  | 'b' => some (Char.ofNat 0x08)
  | 't' => some '\t'
  | '\t' => some '\t'
  | 'n' => some '\n'
  | 'v' => some (Char.ofNat 0x0B)
  | 'f' => some (Char.ofNat 0x0C)
  | 'r' => some '\r'
  | 'e' => some (Char.ofNat 0x1B)
  | ' ' => some ' '
  | '"' => some '"'
  | '\'' => some '\''
  | '\\' => some '\\'
  | 'N' => some (Char.ofNat 0x85)
  | '_' => some (Char.ofNat 0xA0)
  | 'L' => some (Char.ofNat 0x2028)
  | 'P' => some (Char.ofNat 0x2029)
  | _ => none

/-- Reads on in a scalar between double quotes.  A backslash before a line break
    joins the lines. -/
def doubleFrom (done : List Char) (gap : Gap) (line column : Nat) : List Char → Option Lexeme
  | [] => none
  | c :: rest =>
    if isBreak c then doubleFrom done (gap.add c) (line + 1) 0 rest
    else if isBlank c then doubleFrom done (gap.add c) line (column + 1) rest
    else if column == 0 && atDocumentMark (c :: rest) then none
    else
      let done := gap.folded ++ done
      if c == '"' then some ⟨done.reverse, false, ⟨rest, line, column + 1⟩⟩
      else if c == '\\' then
        match rest with
        | 'x' :: d :: e :: rest => do
          doubleFrom ((← Text.charOfHex? [d, e]) :: done) (.blanks []) line (column + 4) rest
        | 'u' :: d :: e :: f :: g :: rest => do
          doubleFrom ((← Text.charOfHex? [d, e, f, g]) :: done) (.blanks []) line (column + 6) rest
        | 'U' :: d :: e :: f :: g :: h :: i :: j :: k :: rest => do
          doubleFrom ((← Text.charOfHex? [d, e, f, g, h, i, j, k]) :: done) (.blanks []) line
            (column + 10) rest
        | l :: rest =>
          -- an escaped line break leaves nothing behind
          if isBreak l then doubleFrom done (.breaks none []) (line + 1) 0 rest
          else do
            doubleFrom ((← escaped? l) :: done) (.blanks []) line (column + 2) rest
        | [] => none
      else doubleFrom (c :: done) (.blanks []) line (column + 1) rest

/-- Reads a quoted scalar behind its opening quote. -/
def quotedScalar (quote : Char) (p : Cursor) : Option Lexeme :=
  if quote == '\'' then singleFrom [] (.blanks []) p.line p.column p.rest
  else doubleFrom [] (.blanks []) p.line p.column p.rest

/-! ### Block scalars -/

/-- What becomes of the line breaks at the end of a block. -/
inductive Chomping where
  /-- None is left. -/
  | strip
  /-- One is left. -/
  | clip
  /-- All are left. -/
  | keep
deriving DecidableEq, Repr

def chomping? : Char → Option Chomping
  | '-' => some .strip
  | '+' => some .keep
  | _ => none

/-- Reads the signs behind the mark of a block: its chomping and the number by which
    its lines are indented, if it is given, in either order. -/
def blockSigns : List Char → Option (Chomping × Nat × List Char)
  | [] => some (.clip, 0, [])
  | c :: rest =>
    let depth? (c : Char) : Option Nat := if c.isDigit then some (c.toNat - 0x30) else none
    match chomping? c, depth? c with
    | some chomping, _ =>
      match rest.head?.bind depth? with
      | some 0 => none
      | some n => some (chomping, n, rest.tail)
      | none => some (chomping, 0, rest)
    | none, some 0 => none
    | none, some n =>
      match rest.head?.bind chomping? with
      | some chomping => some (chomping, n, rest.tail)
      | none => some (.clip, n, rest)
    | none, none => some (.clip, 0, c :: rest)

/-- Passes over indentation and empty lines.  `depth` is the indentation of the
    block, or zero as long as it is not known.  The result are the breaks that were
    read, the last one first, the deepest indentation that was met, and the place.
    A tab in the indentation is refused. -/
def blockGap (depth : Nat) (breaks : List Char) (deepest line column : Nat) :
    List Char → Option (List Char × Nat × Cursor)
  | [] => some (breaks, max deepest column, ⟨[], line, column⟩)
  | c :: rest =>
    let inside := depth == 0 || column < depth
    if inside && c == ' ' then blockGap depth breaks deepest line (column + 1) rest
    else if inside && c == '\t' then none
    else if isBreak c then
      blockGap depth (breakChar c :: breaks) (max deepest column) (line + 1) 0 rest
    else some (breaks, max deepest column, ⟨c :: rest, line, column⟩)

/-- What was read of a block: its text up to the last line, the break at the end of
    that line, and those that follow, all with the last character first. -/
structure BlockText where
  done : List Char := []
  lead : Option Char := none
  trail : List Char := []
deriving DecidableEq, Repr

/-- Reads the lines of a block.  In a folded block the break between two lines that
    do not begin with white space becomes a blank; `indented` tells whether the line
    before did. -/
def blockLines (folds : Bool) (depth : Nat) :
    Nat → Bool → BlockText → Cursor → Option (BlockText × Cursor)
  | 0, _, t, p => some (t, p)
  | fuel + 1, indented, t, p =>
    if p.column == depth && p.rest != [] then
      let blank := p.rest.head?.any isBlank
      let join :=
        if folds && !indented && !blank && t.lead == some '\n' then
          if t.trail == [] then [' '] else t.trail
        else t.trail ++ t.lead.toList
      let body := p.rest.takeWhile fun c => !isBreak c
      let q := p.pass body.length
      let r := q.pass 1
      match blockGap depth [] 0 r.line r.column r.rest with
      | none => none
      | some (trail, _, next) =>
        let done := body.reverse ++ (join ++ t.done)
        blockLines folds depth fuel blank ⟨done, q.rest.head?.map breakChar, trail⟩ next
    else some (t, p)

/-- Reads a block behind its mark. -/
def blockScalar (folds : Bool) (margin : Nat) (p : Cursor) : Option Lexeme := do
  let (chomping, number, rest) ← blockSigns p.rest
  let p := p.pass (p.rest.length - rest.length)
  let p := p.pass (p.rest.takeWhile isBlank).length
  -- a comment may end the line
  let p := if p.rest.head? == some '#' then
    p.pass (p.rest.takeWhile fun c => !isBreak c).length else p
  if !atBreak p.rest then none
  else do
    let p := p.pass 1
    let given := if number = 0 then 0 else margin - 1 + number
    let (trail, deepest, p) ← blockGap given [] 0 p.line p.column p.rest
    let depth := if given = 0 then max deepest (max margin 1) else given
    let (t, p) ← blockLines folds depth (p.rest.length + 1) false ⟨[], none, trail⟩ p
    let tail := match chomping with
      | .strip => []
      | .clip => t.lead.toList
      | .keep => t.trail ++ t.lead.toList
    return ⟨(tail ++ t.done).reverse, true, p⟩

end MiniML.Yaml
