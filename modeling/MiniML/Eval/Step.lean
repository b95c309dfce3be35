/-
  MiniML/Eval/Step.lean
  =====================
  **Reduction** — one step of a term against a store.  Sub-terms are reduced from
  left to right, and a compound term's own rule applies when its evaluated
  sub-terms are irreducible.  An application is the exception: a function that is
  an abstraction, or a `fix` of one, is applied to its argument as it stands.
  Nothing is reduced below a binder or in a branch that is not chosen.

  `step` answers with `none` when no rule applies.
-/
import MiniML.Term.Binding
import MiniML.Eval.Store

namespace MiniML

/-- A term and the store it is evaluated against. -/
structure Config where
  term : Term
  store : Store
deriving DecidableEq

def Config.within (c : Config) (f : Term → Term) : Config := ⟨f c.term, c.store⟩

/-! ### The rules of the single forms

Each function gives what a form reduces to once its evaluated parts are
irreducible. -/

namespace Rule

/-- An abstraction is applied by substitution; a `fix` of an abstraction is
    unfolded once when it is applied. -/
def beta? : Term → Term → Option Term
  | .abs x b, a => some (.subst x a b)
  | .fix (.abs f b), a => some (.app (.subst f (.fix (.abs f b)) b) a)
  | _, _ => none

def head? : Term → Option Term
  | .cons h _ => some h
  | _ => none

def tail? : Term → Option Term
  | .cons _ t => some t
  | _ => none

/-- Arithmetic on two literals, with wrap-around. -/
def arith? (op : Int64 → Int64 → Int64) : Term → Term → Option Term
  | .int m, .int n => some (.int (op m n))
  | _, _ => none

def ifZero? : Term → Term → Term → Option Term
  | .int n, t, e => some (if n = 0 then t else e)
  | _, _, _ => none

def ifEmpty? : Term → Term → Term → Option Term
  | .nil, t, _ => some t
  | .cons _ _, _, e => some e
  | _, _, _ => none

/-- A value moves into a new region. -/
def mkRef? (s : Store) (e : Term) : Option Config :=
  if e.isValue then some ⟨.region (s.alloc e).1, (s.alloc e).2⟩ else none

/-- The content of a region that the store knows. -/
def deref? (s : Store) : Term → Option Term
  | .region i => s.get? i
  | _ => none

/-- A value is written to a region, also to one that the store does not know. -/
def assign? (s : Store) : Term → Term → Option Config
  | .region i, v => if v.isValue then some ⟨.unit, s.set i v⟩ else none
  | _, _ => none

end Rule

/-- One reduction step of a term against a store. -/
def step (s : Store) : Term → Option Config
  | .var _ | .abs _ _ | .int _ | .nil | .unit | .region _ => none
  | .app f a =>
    -- before anything else is tried, so the argument is taken as it stands
    match Rule.beta? f a with
    | some t => some ⟨t, s⟩
    | none =>
      match step s f with
      | some c => some (c.within (.app · a))
      | none => (step s a).map (·.within (.app f ·))
  | .letIn x v b =>
    -- only a value takes the place of the name
    match step s v with
    | some c => some (c.within (.letIn x · b))
    | none => if v.isValue then some ⟨.subst x v b, s⟩ else none
  | .cons h t =>
    match step s h with
    | some c => some (c.within (.cons · t))
    | none => (step s t).map (·.within (.cons h ·))
  | .head l =>
    match step s l with
    | some c => some (c.within .head)
    | none => (Rule.head? l).map (⟨·, s⟩)
  | .tail l =>
    match step s l with
    | some c => some (c.within .tail)
    | none => (Rule.tail? l).map (⟨·, s⟩)
  | .add l r =>
    match step s l with
    | some c => some (c.within (.add · r))
    | none =>
      match step s r with
      | some c => some (c.within (.add l ·))
      | none => (Rule.arith? (· + ·) l r).map (⟨·, s⟩)
  | .sub l r =>
    match step s l with
    | some c => some (c.within (.sub · r))
    | none =>
      match step s r with
      | some c => some (c.within (.sub l ·))
      | none => (Rule.arith? (· - ·) l r).map (⟨·, s⟩)
  | .ifZero c t e =>
    match step s c with
    | some d => some (d.within (.ifZero · t e))
    | none => (Rule.ifZero? c t e).map (⟨·, s⟩)
  | .ifEmpty c t e =>
    match step s c with
    | some d => some (d.within (.ifEmpty · t e))
    | none => (Rule.ifEmpty? c t e).map (⟨·, s⟩)
  | .fix f => (step s f).map (·.within .fix)
  | .mkRef e =>
    match step s e with
    | some c => some (c.within .mkRef)
    | none => Rule.mkRef? s e
  | .deref e =>
    match step s e with
    | some c => some (c.within .deref)
    | none => (Rule.deref? s e).map (⟨·, s⟩)
  | .assign r v =>
    match step s r with
    | some c => some (c.within (.assign · v))
    | none =>
      match step s v with
      | some c => some (c.within (.assign r ·))
      | none => Rule.assign? s r v

def Config.step? (c : Config) : Option Config := step c.store c.term

theorem step_eq_none_of_isValue (s : Store) {t : Term} (h : t.isValue = true) :
    step s t = none := by
  induction t with
  | var | abs | int | nil | unit | region => rfl
  | cons a b iha ihb =>
    simp only [Term.isValue, Bool.and_eq_true] at h
    simp only [step, iha h.1, ihb h.2, Option.map_none]
  | fix f ih => simp only [step, ih h, Option.map_none]
  | app | letIn | head | tail | add | sub | ifZero | ifEmpty | mkRef | deref | assign =>
    exact absurd h Bool.false_ne_true

end MiniML
