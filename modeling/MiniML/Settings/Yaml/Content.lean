/-
  MiniML/Settings/Yaml/Content.lean
  =================================
  **What scalars of YAML stand for** — a plain scalar is nothing, a truth value, a
  number or a text by its form.  A tag can ask for one of these, and then the
  scalar must have its form even if it is quoted.  Any other tag makes it a text.
-/
import MiniML.Settings.Yaml.Node
import MiniML.Source.Glyph
import MiniML.Text.Base64
import MiniML.Text.Decimal
import MiniML.Text.Moment

namespace MiniML.Yaml

/-- What a scalar stands for, as far as settings can tell. -/
inductive Content where
  | null
  | boolean (b : Bool)
  | integer (n : Int)
  /-- A float, by its whole part. -/
  | float (whole : Int)
  /-- Neither infinity nor the absence of a number is a whole number. -/
  | noNumber
  | text (s : String)
deriving DecidableEq, Repr

/-! ### Plain scalars -/

/-- The integer that digits of a base denote behind the mark of the base, where they
    may have a sign. -/
def markedInteger? (base : Nat) (cs : List Char) : Option Int := do
  let (negative, digits) := Numeral.signed cs
  let isDigit (c : Char) : Bool := (Numeral.digitValue? c).any (· < base)
  if digits = [] ∨ !digits.all isDigit then none
  else
    let n := digits.foldl (fun n c => base * n + (c.toNat - 0x30)) 0
    let value : Int := if negative then -n else n
    if -0x8000000000000000 ≤ value ∧ value < 0x8000000000000000 then some value else none

/-- The number that a scalar denotes that begins with a digit or a sign.
    Underscores in it do not count. -/
def number? (cs : List Char) : Option Content :=
  let plain := Decimal.joined cs
  let (negative, body) := Numeral.signed plain
  -- without a sign the range is that of unsigned integers
  let most :=
    if negative then 0x8000000000000000
    else if plain.head? == some '+' then 0x7fffffffffffffff
    else 0xffffffffffffffff
  match (Numeral.magnitude body).toOption.filter (· ≤ most) with
  | some n => some (.integer (if negative then -(n : Int) else n))
  | none =>
    match Decimal.whole? plain with
    | some n => some (.float n)
    | none =>
      match plain with
      | '0' :: 'b' :: rest => (markedInteger? 2 rest).map .integer
      | '0' :: 'o' :: rest => (markedInteger? 8 rest).map .integer
      | _ => none

def resolve (s : String) : Content :=
  if ["", "~", "null", "Null", "NULL"].contains s then .null
  else if ["true", "True", "TRUE"].contains s then .boolean true
  else if ["false", "False", "FALSE"].contains s then .boolean false
  else if [".nan", ".NaN", ".NAN"].contains s then .noNumber
  else if [".inf", ".Inf", ".INF", "+.inf", "+.Inf", "+.INF"].contains s then .noNumber
  else if ["-.inf", "-.Inf", "-.INF"].contains s then .float (-Binary64.limit)
  else
    match s.toList with
    | [] => .null
    | c :: rest =>
      let cs := c :: rest
      if Text.isAsciiDigit c || c == '+' || c == '-' then (number? cs).getD (.text s)
      else if c == '.' && Decimal.separated false cs then
        match Decimal.whole? (Decimal.joined cs) with
        | some n => .float n
        | none => .text s
      else .text s

/-! ### Tags -/

/-- The tags of the common types are written with two exclamation marks. -/
def shortTag (tag : String) : String :=
  let long := "tag:yaml.org,2002:".toList
  if long.isPrefixOf tag.toList then "!!" ++ String.ofList (tag.toList.drop long.length) else tag

/-- The layouts of dates that a tag can ask for. -/
def layouts : List (List MomentField) :=
  let full (mark : Char) := Moment.date false ++ [.mark mark] ++ Moment.time false
  [full 'T' ++ [.zone], full 't' ++ [.zone], full ' ', Moment.date false]

def binary? (s : String) : Option String :=
  (Base64.decode? s.toList).map fun bytes => Glyph.text (Utf8.decode bytes)

/-- An integer as a float. -/
def floatOf (n : Int) : Int :=
  if n < 0 then -(Binary64.whole n.natAbs 1 : Int) else Binary64.whole n.natAbs 1

def tagged? (tag : String) (s : String) : Option Content :=
  match tag with
  | "!!null" => if resolve s = .null then some .null else none
  | "!!bool" =>
    match resolve s with
    | .boolean b => some (.boolean b)
    | _ => none
  | "!!int" =>
    match resolve s with
    | .integer n => some (.integer n)
    | _ => none
  | "!!float" =>
    match resolve s with
    | .integer n => (int64? n).map fun _ => .float (floatOf n)
    | .float n => some (.float n)
    | .noNumber => some .noNumber
    | _ => none
  | "!!timestamp" => if Moment.fitsAny layouts s.toList then some (.text s) else none
  | "!!binary" => (binary? s).map .text
  | _ => some (.text s)

def content? (s : String) (plain : Bool) (tag : String) : Option Content :=
  if tag = "" ∨ tag = "!" then
    some (if plain then resolve s else .text s)
  else tagged? (shortTag tag) s

/-- The text that a scalar gives to a setting that takes any text. -/
def textOf (s : String) : Content → String
  | .text t => t
  | _ => s

end MiniML.Yaml
