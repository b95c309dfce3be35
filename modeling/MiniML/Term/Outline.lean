/-
  MiniML/Term/Outline.lean
  ========================
  **Outlines of terms** — a printed form that shows the structure: a form with its
  fields, one field to a line, indented by four more blanks at each level.  A form
  without sub-terms takes one line, and fields that are zero or empty throughout
  are left out.

  The values of neighbouring fields stand in one column.  A value of several lines
  ends such a block: its first line still belongs to it, and the field after it
  begins another.

  Outlines are limited in two ways.  Ten levels are shown and deeper terms are
  marked.  And `nil` and `()`, which have no fields that tell one from another, are
  marked as shown before when they stand deeper than the last of their kind.
-/
import MiniML.Term.Basic
import MiniML.Text.Quoted

namespace MiniML

namespace Outline

abbrev Field := String × List String

/-- The widest label of the block that begins with these fields. -/
def labelWidth : List Field → Nat
  | [] => 0
  | (label, value) :: rest =>
    if value.length > 1 then label.length else max label.length (labelWidth rest)

/-- The lines of a field whose value stands in the column behind labels of the
    given width. -/
def fieldLines (width : Nat) (f : Field) : List String :=
  let blanks := String.ofList (List.replicate (width + 1 - f.1.length) ' ')
  match f.2 with
  | [] => []
  | first :: rest =>
    let all := (f.1 ++ ":" ++ blanks ++ first) :: rest
    (all.dropLast ++ [all.getLastD "" ++ ","]).map ("    " ++ ·)

/-- The lines of fields.  `width` is that of the current block, if one is open. -/
def layout (width : Option Nat) : List Field → List String
  | [] => []
  | f :: rest =>
    let w := width.getD (labelWidth (f :: rest))
    fieldLines w f ++ layout (if f.2.length > 1 then none else some w) rest

/-- A form with its fields on lines of their own. -/
def form (name : String) (fields : List Field) : List String :=
  ("&ast." ++ name ++ "\x7b") :: layout none fields ++ ["\x7d"]

def leaf (name field : String) : List String := ["&ast." ++ name ++ "\x7b" ++ field ++ "\x7d"]

/-- The levels at which `nil` and `()` were shown last. -/
structure Shown where
  nil : Option Nat := none
  unit : Option Nat := none
deriving DecidableEq, Repr

/-- The line of a form without fields, last shown at `last`. -/
def empty (name : String) (last : Option Nat) (level : Nat) : List String :=
  leaf name (if last.any (· < level) then "(CYCLIC REFERENCE)" else "")

/-- The level of a form without fields that is shown last after another one: a
    marked one does not count. -/
def latest (last : Option Nat) (level : Nat) : Option Nat :=
  if last.any (· < level) then last else some level

def tooDeep : List String := ["&!%v(DEPTH EXCEEDED)"]

def levels : Nat := 10

end Outline

namespace Term

open Outline

/-- The lines of a term that stands at a level, given what was shown before. -/
def outlineAt (level : Nat) (t : Term) (s : Shown) : List String × Shown :=
  if level ≥ levels then (tooDeep, s)
  else
    match t with
    | .var x => (leaf "Var" (if x = "" then "" else "Name:" ++ Text.quoted x), s)
    | .int n => (leaf "Int" (if n = 0 then "" else "Value:" ++ decimal n), s)
    | .region i => (leaf "Region" (if i = 0 then "" else "Id:" ++ decimal i), s)
    | .nil => (empty "Nil" s.nil level, { s with nil := latest s.nil level })
    | .unit => (empty "Unit" s.unit level, { s with unit := latest s.unit level })
    | .abs x b =>
      let b' := b.outlineAt (level + 1) s
      (form "Abs" [("Name", [Text.quoted x]), ("Body", b'.1)], b'.2)
    | .letIn x v b =>
      let v' := v.outlineAt (level + 1) s
      let b' := b.outlineAt (level + 1) v'.2
      (form "Let" [("Name", [Text.quoted x]), ("Value", v'.1), ("Body", b'.1)], b'.2)
    | .app a b =>
      let a' := a.outlineAt (level + 1) s
      let b' := b.outlineAt (level + 1) a'.2
      (form "App" [("Left", a'.1), ("Right", b'.1)], b'.2)
    | .cons a b =>
      let a' := a.outlineAt (level + 1) s
      let b' := b.outlineAt (level + 1) a'.2
      (form "Cons" [("Head", a'.1), ("Tail", b'.1)], b'.2)
    | .head a =>
      let a' := a.outlineAt (level + 1) s
      (form "Head" [("List", a'.1)], a'.2)
    | .tail a =>
      let a' := a.outlineAt (level + 1) s
      (form "Tail" [("List", a'.1)], a'.2)
    | .add a b =>
      let a' := a.outlineAt (level + 1) s
      let b' := b.outlineAt (level + 1) a'.2
      (form "Add" [("Left", a'.1), ("Right", b'.1)], b'.2)
    | .sub a b =>
      let a' := a.outlineAt (level + 1) s
      let b' := b.outlineAt (level + 1) a'.2
      (form "Sub" [("Left", a'.1), ("Right", b'.1)], b'.2)
    | .ifZero c a b =>
      let c' := c.outlineAt (level + 1) s
      let a' := a.outlineAt (level + 1) c'.2
      let b' := b.outlineAt (level + 1) a'.2
      (form "Izte" [("Cond", c'.1), ("Then", a'.1), ("Else", b'.1)], b'.2)
    | .ifEmpty c a b =>
      let c' := c.outlineAt (level + 1) s
      let a' := a.outlineAt (level + 1) c'.2
      let b' := b.outlineAt (level + 1) a'.2
      (form "Iete" [("Cond", c'.1), ("Then", a'.1), ("Else", b'.1)], b'.2)
    | .fix a =>
      let a' := a.outlineAt (level + 1) s
      (form "Fix" [("Func", a'.1)], a'.2)
    | .mkRef a =>
      let a' := a.outlineAt (level + 1) s
      (form "Mkref" [("Expr", a'.1)], a'.2)
    | .deref a =>
      let a' := a.outlineAt (level + 1) s
      (form "Deref" [("Expr", a'.1)], a'.2)
    | .assign a b =>
      let a' := a.outlineAt (level + 1) s
      let b' := b.outlineAt (level + 1) a'.2
      (form "Assign" [("Ref", a'.1), ("Value", b'.1)], b'.2)

def outline (t : Term) : String := "\n".intercalate (t.outlineAt 0 {}).1

end Term

end MiniML
