/-
  MiniML/Term/Print.lean
  ======================
  **The printed form of terms** — the form used in every report.  It is fully
  parenthesised and is *not* the input language: abstractions are written with
  `fun`, sums and differences with an operator between their operands, and
  regions, which no source text denotes, as `ρ` and a number.
-/
import MiniML.Term.Basic

namespace MiniML.Term

/-- The printed form. -/
def text : Term → String
  | .var x => x
  | .abs x b => "(fun " ++ x ++ " -> " ++ b.text ++ ")"
  | .app f a => "(" ++ f.text ++ " " ++ a.text ++ ")"
  | .letIn x v b => "(let " ++ x ++ " = " ++ v.text ++ " in " ++ b.text ++ ")"
  | .int n => decimal n
  | .nil => "nil"
  | .cons h t => "(cons " ++ h.text ++ " " ++ t.text ++ ")"
  | .head l => "(head " ++ l.text ++ ")"
  | .tail l => "(tail " ++ l.text ++ ")"
  | .add l r => "(" ++ l.text ++ " + " ++ r.text ++ ")"
  | .sub l r => "(" ++ l.text ++ " - " ++ r.text ++ ")"
  | .ifZero c t e => "(ifz " ++ c.text ++ " then " ++ t.text ++ " else " ++ e.text ++ ")"
  | .ifEmpty c t e => "(ife " ++ c.text ++ " then " ++ t.text ++ " else " ++ e.text ++ ")"
  | .fix f => "(fix " ++ f.text ++ ")"
  | .unit => "()"
  | .mkRef e => "(ref " ++ e.text ++ ")"
  | .deref e => "!" ++ e.text
  | .assign r v => "(" ++ r.text ++ " := " ++ v.text ++ ")"
  | .region i => "ρ" ++ decimal i

end MiniML.Term
