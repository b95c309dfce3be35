/-
  MiniML/Proofs/Source/Denotable.lean
  ===================================
  **What source text can denote** — a term that is read from a source holds no
  region, and all its names are identifiers.  No identifier begins with an underscore
  and goes on, so the names that a session gives to binders never meet a name that
  was read.

  This is the part of what is known of parsed terms that evaluation and sessions need.
  It asks nothing of integers, and of names only how they begin.
-/
import MiniML.Proofs.Source.Surface

namespace MiniML

/-- A name that the scanner lets pass: the lone underscore, or a name that begins
    with something else. -/
def IsIdent (x : String) : Prop := x = "_" ∨ x.toList.head? ≠ some '_'

theorem Scan.IsName.isIdent {x : String} (h : IsName x) : IsIdent x := h.clean.underscore

namespace Term

/-- A term without regions whose names are all identifiers. -/
def Denotable : Term → Prop
  | .var x => IsIdent x
  | .abs x b => IsIdent x ∧ b.Denotable
  | .app f a => f.Denotable ∧ a.Denotable
  | .letIn x v b => IsIdent x ∧ v.Denotable ∧ b.Denotable
  | .int _ | .nil | .unit => True
  | .cons h t => h.Denotable ∧ t.Denotable
  | .head l | .tail l => l.Denotable
  | .add l r | .sub l r => l.Denotable ∧ r.Denotable
  | .ifZero c t e | .ifEmpty c t e => c.Denotable ∧ t.Denotable ∧ e.Denotable
  | .fix f => f.Denotable
  | .mkRef e | .deref e => e.Denotable
  | .assign r v => r.Denotable ∧ v.Denotable
  | .region _ => False

theorem Surface.denotable {t : Term} (h : t.Surface) : t.Denotable := by
  induction t with
  | var x => exact Scan.IsName.isIdent h
  | int | nil | unit => exact trivial
  | region => exact h
  | abs x b ih => exact ⟨h.1.isIdent, ih h.2⟩
  | letIn x v b ihv ihb => exact ⟨h.1.isIdent, ihv h.2.1, ihb h.2.2⟩
  | head l ih | tail l ih | fix l ih | mkRef l ih | deref l ih => exact ih h
  | app a b iha ihb | cons a b iha ihb | add a b iha ihb | sub a b iha ihb
  | assign a b iha ihb => exact ⟨iha h.1, ihb h.2⟩
  | ifZero a b c iha ihb ihc | ifEmpty a b c iha ihb ihc =>
    exact ⟨iha h.1, ihb h.2.1, ihc h.2.2⟩

end Term

/-- A statement that a source can denote. -/
structure Statement.Denotable (st : Statement) : Prop where
  term : st.term.Denotable
  binder : ∀ x, st.binder = some x → IsIdent x

theorem denotable_of_parseStatement {source : List Glyph} {st : Statement}
    (h : parseStatement source = .ok st) : st.Denotable := by
  obtain ⟨hterm, hbinder⟩ := surface_of_parseStatement h
  exact ⟨hterm.denotable, fun x hx => (hbinder x hx).isIdent⟩

theorem denotable_of_parseProgram {source : List Glyph} {sts : List Statement}
    (h : parseProgram source = .ok sts) : ∀ st ∈ sts, st.Denotable := by
  intro st hst
  obtain ⟨hterm, hbinder⟩ := surface_of_parseProgram h st hst
  exact ⟨hterm.denotable, fun x hx => (hbinder x hx).isIdent⟩

end MiniML
