/-
  MiniML/Term/Basic.lean
  ======================
  **Terms of the calculus** — a call-by-value lambda calculus with `let`, 64-bit
  integers, lists, recursion by `fix`, and references to a store.  `region` is
  the one form that no source text denotes: it is the address that a `ref`
  leaves behind when it is evaluated.

  The file also holds what can be read off a term without any notion of binding:
  the sub-terms in walking order, the size, the regions, the class of values,
  and the class of *expansive* terms, whose evaluation may allocate and whose
  type must therefore not be generalised.
-/
import MiniML.Name

namespace MiniML

/-- Terms.  Names may be any string; integers and region ids are 64-bit words. -/
inductive Term where
  | var (name : String)
  | abs (name : String) (body : Term)
  | app (func arg : Term)
  | letIn (name : String) (value body : Term)
  | int (value : Int64)
  | nil
  | cons (head tail : Term)
  | head (list : Term)
  | tail (list : Term)
  | add (left right : Term)
  | sub (left right : Term)
  | ifZero (cond zero other : Term)
  | ifEmpty (cond empty other : Term)
  | fix (func : Term)
  | unit
  | mkRef (content : Term)
  | deref (ref : Term)
  | assign (ref value : Term)
  | region (id : Int64)
deriving DecidableEq, Repr, Inhabited

namespace Term

/-- The name of a term's outermost form, as reports spell it. -/
def formName : Term → String
  | .var _ => "Var"
  | .abs _ _ => "Abs"
  | .app _ _ => "App"
  | .letIn _ _ _ => "Let"
  | .int _ => "Int"
  | .nil => "Nil"
  | .cons _ _ => "Cons"
  | .head _ => "Head"
  | .tail _ => "Tail"
  | .add _ _ => "Add"
  | .sub _ _ => "Sub"
  | .ifZero _ _ _ => "Izte"
  | .ifEmpty _ _ _ => "Iete"
  | .fix _ => "Fix"
  | .unit => "Unit"
  | .mkRef _ => "Mkref"
  | .deref _ => "Deref"
  | .assign _ _ => "Assign"
  | .region _ => "Region"

/-! ### Curried forms -/

def absMany (names : List String) (body : Term) : Term :=
  names.foldr .abs body

/-- Application to several arguments, grouped to the left. -/
def appMany (f : Term) (args : List Term) : Term :=
  args.foldl .app f

/-- The list of the given elements: cons cells ended by `nil`. -/
def listOf (elements : List Term) : Term :=
  elements.foldr .cons .nil

/-! ### Walking -/

/-- A term and all its sub-terms, each before its own sub-terms, left to right. -/
def subterms : Term → List Term
  | .var x => [.var x]
  | .abs x b => .abs x b :: b.subterms
  | .app f a => .app f a :: (f.subterms ++ a.subterms)
  | .letIn x v b => .letIn x v b :: (v.subterms ++ b.subterms)
  | .int n => [.int n]
  | .nil => [.nil]
  | .cons h t => .cons h t :: (h.subterms ++ t.subterms)
  | .head l => .head l :: l.subterms
  | .tail l => .tail l :: l.subterms
  | .add l r => .add l r :: (l.subterms ++ r.subterms)
  | .sub l r => .sub l r :: (l.subterms ++ r.subterms)
  | .ifZero c t e => .ifZero c t e :: (c.subterms ++ t.subterms ++ e.subterms)
  | .ifEmpty c t e => .ifEmpty c t e :: (c.subterms ++ t.subterms ++ e.subterms)
  | .fix f => .fix f :: f.subterms
  | .unit => [.unit]
  | .mkRef e => .mkRef e :: e.subterms
  | .deref e => .deref e :: e.subterms
  | .assign r v => .assign r v :: (r.subterms ++ v.subterms)
  | .region i => [.region i]

def size : Term → Nat
  | .var _ | .int _ | .nil | .unit | .region _ => 1
  | .abs _ b => b.size + 1
  | .app f a => f.size + a.size + 1
  | .letIn _ v b => v.size + b.size + 1
  | .cons h t => h.size + t.size + 1
  | .head l | .tail l => l.size + 1
  | .add l r | .sub l r => l.size + r.size + 1
  | .ifZero c t e | .ifEmpty c t e => c.size + t.size + e.size + 1
  | .fix f => f.size + 1
  | .mkRef e | .deref e => e.size + 1
  | .assign r v => r.size + v.size + 1

theorem size_pos (t : Term) : 0 < t.size := by
  cases t <;> simp [size]

@[simp] theorem length_subterms (t : Term) : t.subterms.length = t.size := by
  induction t <;> simp_all [subterms, size, Nat.add_assoc]

/-- The id that a node itself mentions. -/
def regionId? : Term → Option Int64
  | .region i => some i
  | _ => none

/-- The region ids that a term mentions, in walking order and with repetitions. -/
def regions (t : Term) : List Int64 := t.subterms.filterMap regionId?

/-! ### Values and expansive terms -/

/-- Values: terms that evaluation leaves alone.  A variable counts as a value, a
    cons cell when both its parts are values, a `fix` when its function is one. -/
def isValue : Term → Bool
  | .var _ | .abs _ _ | .int _ | .nil | .unit | .region _ => true
  | .cons h t => h.isValue && t.isValue
  | .fix f => f.isValue
  | .app _ _ | .letIn _ _ _ | .head _ | .tail _ | .add _ _ | .sub _ _ => false
  | .ifZero _ _ _ | .ifEmpty _ _ _ | .mkRef _ | .deref _ | .assign _ _ => false

/-- Terms whose evaluation may allocate a region: an application or a `ref`
    stands in them outside every abstraction. -/
def isExpansive : Term → Bool
  | .var _ | .abs _ _ | .int _ | .nil | .unit | .region _ => false
  | .app _ _ | .mkRef _ => true
  | .letIn _ v b => v.isExpansive || b.isExpansive
  | .cons h t => h.isExpansive || t.isExpansive
  | .head l | .tail l => l.isExpansive
  | .add l r | .sub l r => l.isExpansive || r.isExpansive
  | .ifZero c t e | .ifEmpty c t e => c.isExpansive || t.isExpansive || e.isExpansive
  | .fix f => f.isExpansive
  | .deref e => e.isExpansive
  | .assign r v => r.isExpansive || v.isExpansive

theorem isExpansive_eq_false_of_isValue {t : Term} (h : t.isValue = true) :
    t.isExpansive = false := by
  induction t with
  | var | abs | int | nil | unit | region => rfl
  | cons a b iha ihb =>
    simp only [isValue, Bool.and_eq_true] at h
    simp only [isExpansive, iha h.1, ihb h.2, Bool.or_self]
  | fix f ih => exact ih h
  | app | letIn | head | tail | add | sub | ifZero | ifEmpty | mkRef | deref | assign =>
    exact absurd h Bool.false_ne_true

end Term

end MiniML
