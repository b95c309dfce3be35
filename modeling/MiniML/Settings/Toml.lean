/-
  MiniML/Settings/Toml.lean
  =========================
  **Settings in TOML** — a setting is a name of the outermost table, whatever its
  case.  It must have a value of its kind; names that belong to no setting are
  ignored.
-/
import MiniML.Settings.Basic
import MiniML.Settings.Toml.Document

namespace MiniML.Toml

/-- Upper and lower case made the same, as far as names of settings need it. -/
def foldCase (c : Char) : Char :=
  if c = 'ſ' then 's' else c.toLower

/-- Names of settings are compared without regard to case. -/
def sameName (a b : String) : Bool := a.toList.map foldCase == b.toList.map foldCase

/-- Takes one name of the outermost table into account.  A setting with a value of
    another kind is refused. -/
def declare (d : Declared) (name : String) (node : Node) : Option Declared :=
  if sameName name "max_steps" then
    match node with
    | .leaf (.integer n) => some { d with maxSteps := n }
    | _ => none
  else if sameName name "unify_fuel" then
    match node with
    | .leaf (.integer n) => some { d with unifyFuel := n }
    | _ => none
  else if sameName name "color" then
    match node with
    | .leaf (.text s) => some { d with color := s }
    | _ => none
  else if sameName name "debug" then
    match node with
    | .leaf (.boolean b) => some { d with debug := b }
    | _ => none
  else some d

def declared? (cs : List Char) : Option Declared := do
  (← readTables cs).foldlM (fun d e => declare d e.1 e.2) {}

end MiniML.Toml
