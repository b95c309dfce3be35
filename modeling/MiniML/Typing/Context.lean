/-
  MiniML/Typing/Context.lean
  ==========================
  **Inference contexts** — a supply of type variables and a unification budget
  that several queries share, with a record of the last failure.

  A query for the type of a term starts by resetting the context, but only if an
  earlier such query used it; instantiating a scheme draws from the supply and
  resets nothing.
-/
import MiniML.Typing.Infer

namespace MiniML

/-- The state shared by the queries of one context. -/
structure InferContext where
  supply : NameSupply := .forTypes "" 0
  fuel : Int64 := 0
  /-- The failure of the last query, if it failed. -/
  lastError : Option TypeError := none
  /-- Whether a query has used the context since it was reset. -/
  used : Bool := false
deriving DecidableEq, Repr

inductive QueryError where
  | emptyTerm
  | typeError (error : TypeError)
deriving DecidableEq, Repr

def QueryError.message : QueryError → String
  | .emptyTerm => "Empty term"
  | .typeError e => e.fault.message

namespace InferContext

/-- A used context starts again with `T0` and forgets its failure; an unused one
    stays as it is. -/
def reset (ctx : InferContext) : InferContext :=
  -- drawing names for a scheme does not count as a use
  if ctx.used then
    { ctx with supply := ctx.supply.reset, lastError := none, used := false }
  else ctx

def setFuel (ctx : InferContext) (fuel : Int64) : InferContext := { ctx with fuel := fuel }

/-- The typing of a term.  A failure is noted, and the names that were drawn for it
    stay drawn. -/
def query (ctx : InferContext) (env : TypeEnv) (t : Term) :
    Except TypeError Typing × InferContext :=
  let ctx := { ctx.reset with used := true }
  -- the supply is kept in either case, for the reset of the next query
  match (Infer.typing (unifyBudget ctx.fuel) env t).run ctx.supply with
  | (.ok typing, supply) => (.ok typing, { ctx with supply := supply })
  | (.error e, supply) => (.error e, { ctx with supply := supply, lastError := some e })

/-- The typing of a term that may be missing.  A missing term is refused and leaves no
    trace. -/
def infer (ctx : InferContext) (t : Option Term) (env : TypeEnv) :
    Except QueryError Typing × InferContext :=
  match t with
  | none => (.error .emptyTerm, ctx)
  | some t =>
    let q := ctx.query env t
    (q.1.mapError .typeError, q.2)

def instantiate (ctx : InferContext) (scheme : Ty) : Ty × InferContext :=
  let r := scheme.instantiate ctx.supply
  (r.1, { ctx with supply := r.2 })

def unify (ctx : InferContext) (a b : Ty) (s : Subst) : Except UnifyFault Subst :=
  MiniML.unify (unifyBudget ctx.fuel) a b s

end InferContext

end MiniML
