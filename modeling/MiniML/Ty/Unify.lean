/-
  MiniML/Ty/Unify.lean
  ====================
  **Unification** — extends a substitution until two types become equal under it.

  The work is a list of pairs of types, taken from the front; the substitution
  found so far is applied to a pair when its turn comes.  The left part of a pair
  of function types is the one exception: it follows its own pair at once and was
  resolved together with it.  Each visited pair costs one unit of a budget, and a
  run whose budget is spent before its pairs ends with `timeout`.
-/
import MiniML.Ty.Subst

namespace MiniML

inductive UnifyFault where
  /-- Two type constructors differ, or a quantified type was met. -/
  | mismatch (left right : Ty)
  /-- A variable would have to stand for a type that contains it. -/
  | occurs (name : String) (type : Ty)
  | timeout
deriving DecidableEq, Repr

namespace UnifyFault

def message : UnifyFault → String
  | .mismatch a b => "Cannot unify " ++ a.text ++ " with " ++ b.text
  | .occurs x t => "Occurs check failed: " ++ x ++ " appears in " ++ t.text
  | .timeout => "Unification timeout"

end UnifyFault

/-- The budget that a non-positive setting stands for. -/
def defaultUnifyFuel : Nat := 1000

def unifyBudget (fuel : Int64) : Nat :=
  if fuel ≤ 0 then defaultUnifyFuel else fuel.toInt.toNat

namespace Unify

/-- Binds a variable, unless it occurs in the type it would stand for. -/
def bind (x : String) (t : Ty) (s : Subst) : Except UnifyFault Subst :=
  if t.occurs x then .error (.occurs x t) else .ok (s.insert x t)

/-- Settles a pair that has no parts to visit. -/
def settle (s : Subst) : Ty → Ty → Except UnifyFault Subst
  | .var x, .var y => if x = y then .ok s else bind x (.var y) s
  | .var x, b => bind x b s
  | a, .var y => bind y a s
  | .int, .int => .ok s
  | .unit, .unit => .ok s
  -- quantified types end here as well, also equal ones
  | a, b => .error (.mismatch a b)

/-- Visits the pair `a`, `b`, which is resolved already, and then the pending
    pairs in order. -/
def visit : Nat → Ty → Ty → List (Ty × Ty) → Subst → Except UnifyFault Subst
  | 0, _, _, _, _ => .error .timeout
  -- the left parts were resolved with the pair itself, the right parts wait for their turn
  | fuel + 1, .arrow a b, .arrow c d, pending, s => visit fuel a c ((b, d) :: pending) s
  | fuel + 1, .list a, .list b, pending, s => visit fuel (s.apply a) (s.apply b) pending s
  | fuel + 1, .ref a, .ref b, pending, s => visit fuel (s.apply a) (s.apply b) pending s
  | fuel + 1, a, b, pending, s =>
    match settle s a b with
    | .error fault => .error fault
    | .ok s' =>
      match pending with
      | [] => .ok s'
      | (c, d) :: rest => visit fuel (s'.apply c) (s'.apply d) rest s'

end Unify

/-- Extends `s` so that `a` and `b` become equal under it, visiting at most `fuel`
    pairs. -/
def unify (fuel : Nat) (a b : Ty) (s : Subst) : Except UnifyFault Subst :=
  Unify.visit fuel (s.apply a) (s.apply b) [] s

end MiniML
