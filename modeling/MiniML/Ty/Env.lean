/-
  MiniML/Ty/Env.lean
  ==================
  **Type environments** — finite maps from term variables to types or schemes —
  and the passage between types and schemes: `Ty.generalize` quantifies over the
  variables that an environment does not hold, `Ty.instantiate` replaces the
  quantified variables by fresh ones.
-/
import MiniML.Ty.Subst

namespace MiniML

/-- A finite map from term variables to their types. -/
abbrev TypeEnv := Std.ExtTreeMap String Ty

namespace TypeEnv

/-- The environment with the bindings of both; those of `other` win. -/
def merge (env other : TypeEnv) : TypeEnv := env ∪ other

def apply (s : Subst) (env : TypeEnv) : TypeEnv := env.map fun _ t => s.apply t

def freeTypeVars (env : TypeEnv) : NameSet :=
  env.foldl (fun names _ t => names ∪ NameSet.ofNames t.freeVars) ∅

theorem getElem?_merge (env other : TypeEnv) (x : String) :
    (env.merge other)[x]? = other[x]?.or env[x]? := by
  simp [merge, Std.ExtTreeMap.getElem?_union]

theorem getElem?_apply (s : Subst) (env : TypeEnv) (x : String) :
    (env.apply s)[x]? = env[x]?.map s.apply := by
  simp [apply, Std.ExtTreeMap.getElem?_map]

end TypeEnv

namespace Ty

/-- Quantifies over the free variables that are not in `fixed`; the variable that
    occurs first becomes the outermost quantifier. -/
def generalize (fixed : NameSet) (t : Ty) : Ty :=
  allMany (t.freeVars.filter fun x => !fixed.contains x) t

/-- Removes the leading quantifiers and puts fresh variables in the place of what
    they bind, all at once; the quantifiers take their names from the outside in.
    Where one name is quantified twice, the inner quantifier's variable counts. -/
def instantiate (t : Ty) (supply : NameSupply) : Ty × NameSupply :=
  let names := supply.freshMany t.splitAll.1.length
  let bindings := t.splitAll.1.zip (names.1.map Ty.var)
  (t.splitAll.2.substAll (bindings.foldl (fun m b => m.insert b.1 b.2) ∅), names.2)

end Ty

end MiniML
