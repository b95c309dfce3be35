/-
  MiniML/Eval/Run.lean
  ====================
  **Evaluation** — repeats reduction until no rule applies, a step leaves the term
  as it was, or a bound is reached.  The binders of the term are renamed to `_v0`,
  `_v1`, … once at the start, which makes substitution capture-free.

  Running out of steps is an outcome and not an error.  A run shows each
  configuration that it reaches to an observer, which is how traces and logs are
  taken.
-/
import MiniML.Eval.Step

namespace MiniML

inductive RunStatus where
  /-- No rule applies and the term is a value. -/
  | normalForm
  /-- No rule applies and the term is no value, or a step changes nothing. -/
  | stuck
  /-- The bound was reached, and the term could still be reduced. -/
  | outOfFuel
deriving DecidableEq, Repr

def RunStatus.text : RunStatus → String
  | .normalForm => "normal form"
  | .stuck => "stuck"
  | .outOfFuel => "out of fuel"

structure Run where
  final : Config
  steps : Nat
  status : RunStatus
deriving DecidableEq

/-- The number of steps that a non-positive setting stands for. -/
def defaultMaxSteps : Nat := 1000

def stepBound (maxSteps : Int64) : Nat :=
  if maxSteps ≤ 0 then defaultMaxSteps else maxSteps.toInt.toNat

namespace Run

def settled (t : Term) : RunStatus := if t.isValue then .normalForm else .stuck

/-- Continues a run that has taken `steps` steps and may take `left` more.  The
    observer sees the number of each further step and what it led to. -/
def loop {σ : Type} (observe : σ → Nat → Config → σ) : Nat → Nat → Config → σ → Run × σ
  | left, steps, c, seen =>
    match c.step? with
    | none => (⟨c, steps, settled c.term⟩, seen)
    | some c' =>
      -- such a step would be repeated for ever
      if c'.term = c.term then (⟨c, steps, .stuck⟩, seen)
      else
        -- the bound counts only where a further step is possible
        match left with
        | 0 => (⟨c, steps, .outOfFuel⟩, seen)
        | left + 1 => loop observe left (steps + 1) c' (observe seen (steps + 1) c')

/-- The configuration from which a term is run: its binders renamed apart. -/
def start (t : Term) (s : Store) : Config :=
  ⟨(t.alphaConvert ∅ (.forBinders "" 0)).1, s⟩

end Run

/-- Evaluates a term against a store, showing each step to an observer. -/
def evalWith {σ : Type} (observe : σ → Nat → Config → σ) (init : σ)
    (t : Term) (s : Store) (maxSteps : Int64) : Run × σ :=
  Run.loop observe (stepBound maxSteps) 0 (Run.start t s) init

def eval (t : Term) (s : Store) (maxSteps : Int64) : Run :=
  (evalWith (fun _ _ _ => ()) () t s maxSteps).1

/-- Evaluates a term and collects the configurations after each step, in order. -/
def evalTraced (t : Term) (s : Store) (maxSteps : Int64) : Run × List (Nat × Config) :=
  let r := evalWith (fun seen n c => (n, c) :: seen) [] t s maxSteps
  (r.1, r.2.reverse)

/-- The configurations that `count` single steps lead to.  A configuration that
    does not step is the last one and is marked. -/
def stepMany : Nat → Config → List (Bool × Config)
  | 0, _ => []
  | count + 1, c =>
    match c.step? with
    | none => [(false, c)]
    | some c' => (true, c') :: stepMany count c'

end MiniML
