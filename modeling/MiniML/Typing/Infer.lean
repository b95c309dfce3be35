/-
  MiniML/Typing/Infer.lean
  ========================
  **Type inference** — computes the type of a term in an environment together
  with the substitution that the term forces on the environment.  `let` is
  polymorphic: the type of a bound term is generalised unless the term is
  expansive, since a reference cell must not be used at two types.

  Fresh variables are drawn from a supply that is threaded through the run and
  that also survives a failure; their numbers appear in results, so the order in
  which they are drawn is part of the definition.
-/
import MiniML.Term.Binding
import MiniML.Ty.Env
import MiniML.Ty.Unify

namespace MiniML

/-- What can be wrong with a term. -/
inductive TypeFault where
  | unbound (name : String)
  | unify (fault : UnifyFault)
deriving DecidableEq, Repr

def TypeFault.message : TypeFault → String
  | .unbound x => "Variable " ++ x ++ " not found"
  | .unify fault => fault.message

structure TypeError where
  fault : TypeFault
  term : Term
deriving DecidableEq, Repr

/-- Computations that draw fresh type variables and may fail.  The supply is
    known after a failure too. -/
abbrev InferM := ExceptT TypeError (StateM NameSupply)

namespace Infer

def fresh : InferM Ty :=
  fun supply => (.ok (.var supply.fresh.1), supply.fresh.2)

/-- The scheme with its quantified variables made fresh. -/
def instantiate (scheme : Ty) : InferM Ty :=
  fun supply => (.ok (scheme.instantiate supply).1, (scheme.instantiate supply).2)

def unifyAt (fuel : Nat) (t : Term) (a b : Ty) (s : Subst) : InferM Subst :=
  match unify fuel a b s with
  | .ok s' => pure s'
  | .error fault => throw ⟨.unify fault, t⟩

def lookup (env : TypeEnv) (x : String) : InferM Ty :=
  match env[x]? with
  | some scheme => instantiate scheme
  | none => throw ⟨.unbound x, .var x⟩

/-- The scheme that `let` gives a term of type `t`: generalised over the
    variables that are not free in the environment, unless the term is
    expansive. -/
def letScheme (env : TypeEnv) (value : Term) (t : Ty) : Ty :=
  if value.isExpansive then t else t.generalize env.freeTypeVars

/-! ### Forms built from the inference of their parts

A part is given as the inference of a sub-term, which still waits for its
environment; `whole` is the term that a fault is reported for. -/

/-- The inference of a sub-term in an environment that is yet to come. -/
abbrev Part := TypeEnv → InferM (Ty × Subst)

/-- Two parts from left to right, the second in the environment as the first
    left it. -/
def both (env : TypeEnv) (first second : Part) : InferM ((Ty × Subst) × (Ty × Subst)) := do
  let l ← first env
  let r ← second (env.apply l.2)
  return (l, r)

/-- Arithmetic: both operands are integers. -/
def arith (fuel : Nat) (whole : Term) (env : TypeEnv) (left right : Part) :
    InferM (Ty × Subst) := do
  let (l, r) ← both env left right
  let s ← unifyAt fuel whole l.1 .int (l.2.compose r.2)
  let s ← unifyAt fuel whole r.1 .int s
  return (.int, s)

/-- A form whose operand has the type `shape v` and that itself has the type
    `result v`, for a fresh variable `v`. -/
def eliminate (fuel : Nat) (whole : Term) (env : TypeEnv) (operand : Part)
    (shape result : Ty → Ty) : InferM (Ty × Subst) := do
  let o ← operand env
  let v ← fresh
  let s ← unifyAt fuel whole o.1 (shape v) o.2
  return (s.apply (result v), s)

/-- The branches of a conditional, which have one type; `s` is what the condition
    forces. -/
def branches (fuel : Nat) (whole : Term) (env : TypeEnv) (s : Subst) (first second : Part) :
    InferM (Ty × Subst) := do
  let l ← first (env.apply s)
  let r ← second (env.apply (s.compose l.2))
  let s ← unifyAt fuel whole l.1 r.1 ((s.compose l.2).compose r.2)
  return (s.apply l.1, s)

end Infer

open Infer in
/-- The type of a term in an environment, and the substitution it forces.  The
    parts of a term are taken from left to right, each in the environment as the
    parts before it left it. -/
def infer (fuel : Nat) (env : TypeEnv) : Term → InferM (Ty × Subst)
  | .var x => do
    let t ← lookup env x
    return (t, ∅)
  | .int _ => return (.int, ∅)
  | .nil => do
    let elem ← fresh
    return (.list elem, ∅)
  | .unit => return (.unit, ∅)
  | .region _ => do
    -- nothing is known of what the store holds
    let content ← fresh
    return (.ref content, ∅)
  | .abs x body => do
    let arg ← fresh
    -- what the body forces on `arg` counts, so it is resolved afterwards
    let (result, s) ← infer fuel (env.insert x arg) body
    return (.arrow (s.apply arg) result, s)
  | .app f a => do
    let (l, r) ← both env (infer fuel · f) (infer fuel · a)
    let result ← fresh
    let s ← unifyAt fuel (.app f a) (r.2.apply l.1) (.arrow r.1 result) (l.2.compose r.2)
    return (s.apply result, s)
  | .letIn x value body => do
    let (valueTy, s₁) ← infer fuel env value
    let env₁ := env.apply s₁
    -- generalised in the environment that the value left
    let scheme := letScheme env₁ value (s₁.apply valueTy)
    let (bodyTy, s₂) ← infer fuel (env₁.insert x scheme) body
    return (bodyTy, s₁.compose s₂)
  | .add l r => arith fuel (.add l r) env (infer fuel · l) (infer fuel · r)
  | .sub l r => arith fuel (.sub l r) env (infer fuel · l) (infer fuel · r)
  | .cons h t => do
    let (l, r) ← both env (infer fuel · h) (infer fuel · t)
    let listTy := Ty.list (r.2.apply l.1)
    let s ← unifyAt fuel (.cons h t) r.1 listTy (l.2.compose r.2)
    return (s.apply listTy, s)
  | .head l => eliminate fuel (.head l) env (infer fuel · l) .list id
  | .tail l => eliminate fuel (.tail l) env (infer fuel · l) .list .list
  | .ifZero c t e => do
    let (condTy, s) ← infer fuel env c
    let s ← unifyAt fuel (.ifZero c t e) condTy .int s
    branches fuel (.ifZero c t e) env s (infer fuel · t) (infer fuel · e)
  | .ifEmpty c t e => do
    let (condTy, s) ← infer fuel env c
    let elem ← fresh
    let s ← unifyAt fuel (.ifEmpty c t e) condTy (.list elem) s
    branches fuel (.ifEmpty c t e) env s (infer fuel · t) (infer fuel · e)
  | .fix f => eliminate fuel (.fix f) env (infer fuel · f) (fun v => .arrow v v) id
  | .mkRef e => do
    let (content, s) ← infer fuel env e
    return (.ref content, s)
  | .deref e => eliminate fuel (.deref e) env (infer fuel · e) .ref id
  | .assign r v => do
    let (l, r') ← both env (infer fuel · r) (infer fuel · v)
    let s ← unifyAt fuel (.assign r v) (r'.2.apply l.1) (.ref r'.1) (l.2.compose r'.2)
    return (.unit, s)

/-! ### Terms with free variables -/

/-- What inference finds out about a term. -/
structure Typing where
  type : Ty
  /-- What the term forces on the type variables of the environment. -/
  subst : Subst
  /-- The types of the free variables that the environment does not bind. -/
  free : TypeEnv
deriving DecidableEq

namespace Infer

/-- Fresh type variables for the listed names. -/
def seeds : List String → NameSupply → TypeEnv × NameSupply
  | [], supply => (∅, supply)
  | x :: names, supply =>
    let rest := seeds names supply.fresh.2
    (rest.1.insert x (.var supply.fresh.1), rest.2)

/-- The typing of a term whose free variables get fresh types first, in the order
    of their names; a binding of the environment wins over such a type. -/
def typing (fuel : Nat) (env : TypeEnv) (t : Term) : InferM Typing := fun supply =>
  -- names that the environment binds draw a variable as well
  let seeded := seeds t.freeVars.toList supply
  match (infer fuel (seeded.1.merge env) t).run seeded.2 with
  | (.error e, supply') => (.error e, supply')
  | (.ok (type, s), supply') =>
    let free : TypeEnv := seeded.1.filter fun x _ => !env.contains x
    (.ok ⟨s.apply type, s, free.apply s⟩, supply')

end Infer

/-- The typing of a term, with type variables `T0`, `T1`, … -/
def inferType (fuel : Nat) (env : TypeEnv) (t : Term) : Except TypeError Typing :=
  ((Infer.typing fuel env t).run (.forTypes "" 0)).1

end MiniML
