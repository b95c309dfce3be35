/-
  MiniML/Ty/Basic.lean
  ====================
  **Types** — variables, functions, integers, lists, unit, references, and
  quantified types.  A *scheme* is a chain of quantifiers over a type without
  quantifiers; inference produces no other quantified types, but every operation
  here is defined for quantifiers in any position.
-/
import MiniML.Name

namespace MiniML

inductive Ty where
  | var (name : String)
  | arrow (dom cod : Ty)
  | int
  | list (elem : Ty)
  | unit
  | ref (content : Ty)
  | all (name : String) (body : Ty)
deriving DecidableEq, Repr, Inhabited

namespace Ty

/-- The name of a type's outermost form, as reports spell it. -/
def formName : Ty → String
  | .var _ => "Var"
  | .arrow _ _ => "Arrow"
  | .int => "Int"
  | .list _ => "List"
  | .unit => "Unit"
  | .ref _ => "Ref"
  | .all _ _ => "Forall"

/-- The printed form, fully parenthesised. -/
def text : Ty → String
  | .var x => x
  | .arrow a b => "(" ++ a.text ++ " -> " ++ b.text ++ ")"
  | .int => "Int"
  | .list e => "[" ++ e.text ++ "]"
  | .unit => "Unit"
  | .ref c => "Ref(" ++ c.text ++ ")"
  | .all v b => "(∀" ++ v ++ ". " ++ b.text ++ ")"

def arrowMany (args : List Ty) (result : Ty) : Ty := args.foldr .arrow result

def allMany (names : List String) (body : Ty) : Ty := names.foldr .all body

/-- The leading quantified variables, outermost first, and the type below them. -/
def splitAll : Ty → List String × Ty
  | .all v b => (v :: b.splitAll.1, b.splitAll.2)
  | t => ([], t)

theorem allMany_splitAll (t : Ty) : allMany t.splitAll.1 t.splitAll.2 = t := by
  induction t with
  | all v b ih => simpa [splitAll, allMany] using ih
  | _ => rfl

/-! ### Free variables -/

/-- The free variables, each once, in the order of their first free occurrence. -/
def freeVars : Ty → List String
  | .var x => [x]
  | .arrow a b => a.freeVars ++ b.freeVars.filter (· ∉ a.freeVars)
  | .int | .unit => []
  | .list e => e.freeVars
  | .ref c => c.freeVars
  | .all v b => b.freeVars.filter (· ≠ v)

def occurs (x : String) : Ty → Bool
  | .var y => y == x
  | .arrow a b => a.occurs x || b.occurs x
  | .int | .unit => false
  | .list e => e.occurs x
  | .ref c => c.occurs x
  | .all v b => v != x && b.occurs x

/-! ### Substitution of variables -/

/-- Replaces the free occurrences of `x` by `r`.  A quantifier over `x` shadows it. -/
def subst (x : String) (r : Ty) : Ty → Ty
  | .var y => if y = x then r else .var y
  | .arrow a b => .arrow (subst x r a) (subst x r b)
  | .int => .int
  | .list e => .list (subst x r e)
  | .unit => .unit
  | .ref c => .ref (subst x r c)
  | .all v b => if v = x then .all v b else .all v (subst x r b)

/-- Replaces the free occurrences of all variables bound by `m` at once; what is
    put in their place is left as it is.  A quantifier shadows its variable. -/
def substAll (m : Std.ExtTreeMap String Ty) : Ty → Ty
  | .var y => (m[y]?).getD (.var y)
  | .arrow a b => .arrow (a.substAll m) (b.substAll m)
  | .int => .int
  | .list e => .list (e.substAll m)
  | .unit => .unit
  | .ref c => .ref (c.substAll m)
  | .all v b => .all v (b.substAll (m.erase v))

end Ty

end MiniML
