/-
  MiniML/Session.lean
  ===================
  **Sessions** — statements executed one after the other.  The types and values of
  top-level bindings and the store that a statement leaves are visible to the
  statements after it.

  A binding is generalised unless its term is expansive.  Type variables that
  remain free are *weak*: they are shared by all statements and may be resolved by
  a later one.  Weak variables are named `_w0`, `_w1`, …, so they never coincide
  with the variables `T0`, `T1`, … that inference draws for the next statement.

  A statement that is rejected leaves nothing behind but its place in the count.
-/
import MiniML.Source.Parse
import MiniML.Term.Print
import MiniML.Typing.Infer
import MiniML.Eval.Run

namespace MiniML

/-- What a session remembers. -/
structure Session where
  maxSteps : Int64
  unifyFuel : Int64
  /-- The supply of weak type variables. -/
  weak : NameSupply := ⟨"_w", 0⟩
  /-- The supply of names for the binders of statements. -/
  names : NameSupply := ⟨"_s", 0⟩
  store : Store := {}
  env : TypeEnv := ∅
  /-- The values of the bindings, the latest first. -/
  bindings : List (String × Term) := []
  /-- The number of statements submitted. -/
  count : Nat := 0

/-- Why a session stops. -/
inductive SessionError where
  | parse (error : ParseError)
  | statement (index : Nat) (error : TypeError)
deriving DecidableEq, Repr

def SessionError.message : SessionError → String
  | .parse e => "parse: " ++ e.message
  | .statement n e => "statement " ++ toString n ++ ": " ++ e.fault.message

structure Outcome where
  binder : Option String
  /-- The type of the statement; for a binding, the scheme that it was given. -/
  type : Ty
  value : Term
  status : RunStatus
  steps : Nat
deriving DecidableEq

def Outcome.text (o : Outcome) : String :=
  (match o.binder with
    | some x => "val " ++ x
    | none => "-") ++
  " : " ++ o.type.text ++ " = " ++ o.value.text ++
  (match o.status with
    | .normalForm => ""
    | status => " (" ++ status.text ++ ")")

inductive LogEntry where
  /-- A reduction step with its number, what it led to, and the number of regions. -/
  | step (number : Nat) (term : Term) (regions : Nat)
  /-- A statement that was executed, with its place in the count. -/
  | statement (index : Nat) (binder : Option String) (type : Ty) (steps : Nat) (status : RunStatus)
deriving DecidableEq, Repr

structure Execution where
  result : Except SessionError Outcome
  log : List LogEntry
  session : Session

namespace Session

def isWeak (x : String) : Bool := "_w".toList.isPrefixOf x.toList

/-- Gives each listed variable that is not weak yet the next weak name. -/
def weaken : List String → Subst → NameSupply → Subst × NameSupply
  | [], s, supply => (s, supply)
  | x :: names, s, supply =>
    if isWeak x || s.contains x then weaken names s supply
    else weaken names (s.insert x (.var supply.fresh.1)) supply.fresh.2

/-- The free type variables of an environment, name by name. -/
def envVars (env : TypeEnv) : List String := env.toList.flatMap fun b => b.2.freeVars

/-- The type that a statement is given, the environment after it, and the supply
    of weak variables that is left. -/
structure Assignment where
  type : Ty
  env : TypeEnv
  weak : NameSupply

/-- Turns a typing of a statement into what the session keeps of it.  A binding is
    generalised if it may be, over the variables that neither the environment nor
    its own free variables mention; what then is free becomes weak. -/
def assign (s : Session) (st : Statement) (t : Typing) : Assignment :=
  let env := s.env.apply t.subst
  match st.binder with
  | some x =>
    let scheme :=
      if st.term.isExpansive then t.type
      else t.type.generalize (env.merge t.free).freeTypeVars
    -- the variables of the environment come first in the order of weak names
    let w := weaken (envVars env ++ scheme.freeVars) ∅ s.weak
    let scheme := w.1.apply scheme
    ⟨scheme, (env.apply w.1).insert x scheme, w.2⟩
  | none =>
    let w := weaken (envVars env) ∅ s.weak
    ⟨w.1.apply t.type, env.apply w.1, w.2⟩

/-- The term that a statement evaluates: its binders renamed, and its free
    variables replaced by the values of the bindings, the latest binding first. -/
def close (s : Session) (t : Term) : Term × NameSupply :=
  let r := t.alphaConvert ∅ s.names
  -- one binding after the other, each in all that the later ones have brought in
  (s.bindings.foldl (fun t b => Term.subst b.1 b.2 t) r.1, r.2)

/-- Executes a statement with the answer of inference: evaluates it if it has a type. -/
def conclude (s : Session) (st : Statement) (answer : Except TypeError Typing) : Execution :=
  let index := s.count + 1
  match answer with
  -- a rejected statement keeps its place in the count
  | .error e => ⟨.error (.statement index e), [], { s with count := index }⟩
  | .ok typing =>
    let a := s.assign st typing
    let closed := s.close st.term
    let r := evalWith
      (fun log n c => LogEntry.step n c.term c.store.size :: log) [] closed.1 s.store s.maxSteps
    let value := r.1.final.term
    ⟨.ok ⟨st.binder, a.type, value, r.1.status, r.1.steps⟩,
      r.2.reverse ++ [.statement index st.binder a.type r.1.steps r.1.status],
      { s with
        weak := a.weak
        names := closed.2
        store := r.1.final.store
        env := a.env
        bindings := (st.binder.map (·, value)).toList ++ s.bindings
        count := index }⟩

/-- Executes a statement: infers its type, and evaluates it if it has one. -/
def exec (s : Session) (st : Statement) : Execution :=
  s.conclude st (inferType (unifyBudget s.unifyFuel) s.env st.term)

/-- What running a program writes, how it failed if it did, what was logged, and
    the session after it. -/
structure Report where
  output : String := ""
  error : Option SessionError := none
  log : List LogEntry := []
  session : Session

/-- Executes statements in order, a line for each outcome, up to the first that
    is rejected. -/
def execAll (s : Session) : List Statement → Report
  | [] => { session := s }
  | st :: rest =>
    let e := s.exec st
    match e.result with
    | .error error => { error := some error, log := e.log, session := e.session }
    | .ok outcome =>
      let more := execAll e.session rest
      { more with output := outcome.text ++ "\n" ++ more.output, log := e.log ++ more.log }

def run (s : Session) (source : List Glyph) : Report :=
  match parseProgram source with
  | .error e => { error := some (.parse e), session := s }
  | .ok statements => s.execAll statements

/-- The session with the same settings and nothing executed yet. -/
def reset (s : Session) : Session := { maxSteps := s.maxSteps, unifyFuel := s.unifyFuel }

end Session

end MiniML
