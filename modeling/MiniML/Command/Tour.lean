/-
  MiniML/Command/Tour.lean
  ========================
  **A tour of the calculus** — example terms in sections, each shown with its type
  and, where that is of interest, with its value.  Some examples are there because
  they have no type.  The tour counts the examples that do not come out as their
  kind says; with the default settings there are none.
-/
import MiniML.Command.Style
import MiniML.Eval.Run
import MiniML.Source.Parse
import MiniML.Term.Print
import MiniML.Typing.Infer

namespace MiniML.Tour

/-- What an example is meant to show. -/
inductive Kind where
  /-- It has a type and a value. -/
  | evaluated
  /-- It has a type. -/
  | typed
  /-- It has no type. -/
  | illTyped
deriving DecidableEq, Repr

structure Example where
  title : String
  source : String
  kind : Kind
deriving DecidableEq, Repr

structure Section where
  title : String
  examples : List Example
deriving DecidableEq, Repr

def sections : List Section :=
  [⟨"Basic lambda calculus",
     [⟨"Identity", "λx.x", .typed⟩,
      ⟨"Application", "(λx.x) y", .evaluated⟩,
      ⟨"K combinator", "λx.λy.x", .typed⟩,
      ⟨"S combinator", "λx.λy.λz.(x z) (y z)", .typed⟩]⟩,
   ⟨"Let-polymorphism",
     [⟨"Generalized identity", "let id = λx.x in id", .typed⟩,
      ⟨"Identity applied to itself", "let id = λx.x in (id id)", .typed⟩,
      ⟨"Identity applied to an integer", "let id = λx.x in id 42", .typed⟩,
      ⟨"Identity applied to a function", "let id = λx.x in id (λx.x)", .typed⟩,
      ⟨"Polymorphic use", "let id = λx.x in let a = id 1 in let b = id (λx.x) in a", .evaluated⟩]⟩,
   ⟨"Integers and arithmetic",
     [⟨"Literal", "42", .typed⟩,
      ⟨"Addition", "add 1 2", .evaluated⟩,
      ⟨"Subtraction", "sub 10 3", .evaluated⟩,
      ⟨"Composition", "add (sub 10 3) (add 1 2)", .evaluated⟩]⟩,
   ⟨"Lists",
     [⟨"Empty list", "nil", .typed⟩,
      ⟨"Singleton", "cons 1 nil", .typed⟩,
      ⟨"Head", "head (cons 1 nil)", .typed⟩,
      ⟨"Tail", "tail (cons 1 (cons 2 nil))", .typed⟩,
      ⟨"Head of the tail", "head (tail (cons 1 (cons 2 nil)))", .evaluated⟩]⟩,
   ⟨"Conditionals",
     [⟨"Branch on zero", "ifz 0 then 1 else 2", .evaluated⟩,
      ⟨"Branch on zero (else)", "ifz 5 then 1 else 2", .evaluated⟩,
      ⟨"Branch on the empty list", "ife nil then 1 else 2", .evaluated⟩,
      ⟨"Branch on the empty list (else)", "ife (cons 1 nil) then 1 else 2", .evaluated⟩,
      ⟨"Branches returning functions", "ifz 0 then (λx.x) else (λy.y)", .typed⟩,
      ⟨"Branches of different types", "ife nil then 1 else (λx.x)", .illTyped⟩]⟩,
   ⟨"Fixpoints and recursion",
     [⟨"Fixpoint", "fix λf.λn.n", .typed⟩,
      ⟨"Sum of 1..5", "(fix λf.λn.ifz n then 0 else (add n (f (sub n 1)))) 5", .evaluated⟩,
      ⟨"Length of a list",
        "(fix λf.λxs.ife xs then 0 else (add 1 (f (tail xs)))) (cons 1 (cons 2 (cons 3 nil)))",
        .evaluated⟩,
      ⟨"Map",
        "let double = λx.add x x in (fix λmap.λf.λxs.ife xs then nil else " ++
          "(cons (f (head xs)) (map f (tail xs)))) double (cons 1 (cons 2 (cons 3 nil)))",
        .evaluated⟩]⟩,
   ⟨"References",
     [⟨"Unit", "()", .typed⟩,
      ⟨"Allocation", "ref 42", .typed⟩,
      ⟨"Dereference", "!(ref 42)", .evaluated⟩,
      ⟨"Assignment", ":= (ref 0) 1", .typed⟩,
      ⟨"Reference to the empty list", "ref nil", .typed⟩,
      ⟨"Dereference of a list", "!(ref (cons 1 nil))", .typed⟩]⟩,
   ⟨"Value restriction",
     [⟨"Reference to the empty list is not generalized",
        "let l = ref nil in let _ = (:= l (cons (λx.x) nil)) in (add (head (!l)) 2)",
        .illTyped⟩,
      ⟨"Reference to an integer", "let r = ref 0 in let _ = (:= r 1) in !r", .evaluated⟩,
      ⟨"Non-expansive values are generalized",
        "let id = λx.x in let a = id 1 in let b = id (λy.y) in a",
        .evaluated⟩,
      ⟨"Applications are not generalized",
        "let f = (λx.ref x) nil in let _ = (:= f (cons 1 nil)) in " ++
          "let _ = (:= f (cons (λx.x) nil)) in head (!f)",
        .illTyped⟩]⟩,
   ⟨"Type errors",
     [⟨"Adding a function", "add (λx.x) 1", .illTyped⟩,
      ⟨"Applying an integer", "1 2", .illTyped⟩,
      ⟨"Head of an integer", "head 42", .illTyped⟩,
      ⟨"Tail of a function", "tail (λx.x)", .illTyped⟩,
      ⟨"Heterogeneous list", "cons 1 (cons (λx.x) nil)", .illTyped⟩,
      ⟨"Branch on zero of a list", "ifz nil then 1 else 2", .illTyped⟩,
      ⟨"Branch on the empty list of an integer", "ife 42 then 1 else 2", .illTyped⟩,
      ⟨"Assignment of the wrong type", "let r = ref 1 in := r (λx.x)", .illTyped⟩,
      ⟨"Dereference of an integer", "!42", .illTyped⟩,
      ⟨"Assignment to an integer", ":= 1 2", .illTyped⟩]⟩,
   ⟨"Compound types",
     [⟨"List of functions", "cons (λx.x) nil", .typed⟩,
      ⟨"Function returning a list", "λx.cons x nil", .typed⟩,
      ⟨"Reference to a list", "ref (cons 1 nil)", .typed⟩,
      ⟨"List of references", "cons (ref 1) nil", .typed⟩,
      ⟨"Polymorphic let-bound function", "let f = λx.λy.x in f", .typed⟩,
      ⟨"Function composition", "let compose = λf.λg.λx.f (g x) in compose", .typed⟩]⟩]

/-! ### Showing examples -/

/-- What was shown, and whether it came out as meant. -/
structure Shown where
  text : String
  ok : Bool
deriving DecidableEq, Repr

/-- The value of an example. -/
def showValue (style : Style) (maxSteps : Int64) (t : Term) : Shown :=
  let r := eval t .empty maxSteps
  let status := match r.status with
    | .normalForm => ""
    | status => " (" ++ status.text ++ ")"
  ⟨"  Result: " ++ style.paint .term r.final.term.text ++ status ++ "\n", r.status == .normalForm⟩

/-- The type of an example and, if it is of that kind, its value. -/
def showTyping (style : Style) (settings : Settings) (kind : Kind) (t : Term) : Shown :=
  match inferType (unifyBudget settings.unifyFuel) ∅ t with
  | .error e =>
    let wanted := kind == .illTyped
    ⟨"  Type error: " ++ style.paint .status e.fault.message ++
      (if wanted then " (expected)" else "") ++ "\n", wanted⟩
  | .ok typing =>
    let line := "  Type:   " ++ style.paint .type typing.type.text ++ "\n"
    match kind with
    | .typed => ⟨line, true⟩
    | .illTyped => ⟨line, false⟩
    | .evaluated =>
      let value := showValue style settings.maxSteps t
      ⟨line ++ value.text, value.ok⟩

def showExample (style : Style) (settings : Settings) (e : Example) : Shown :=
  let head := "\n" ++ e.title ++ "\n  Input:  " ++ e.source ++ "\n"
  match parseTerm (Glyph.ofString e.source) with
  | .error error => ⟨head ++ "  Parse error: " ++ error.message ++ "\n", false⟩
  | .ok t =>
    let typing := showTyping style settings e.kind t
    ⟨head ++ "  Parsed: " ++ style.paint .term t.text ++ "\n" ++ typing.text, typing.ok⟩

/-- A numbered section: its text, and the number of examples that failed. -/
def showSection (style : Style) (settings : Settings) (number : Nat) (s : Section) : String × Nat :=
  let shown := s.examples.map (showExample style settings)
  ("\n" ++ style.paint .label (toString number ++ ". " ++ s.title) ++ "\n" ++
      String.join (shown.map Shown.text),
    shown.countP fun e => !e.ok)

def run (style : Style) (settings : Settings) : String × Nat :=
  let shown := sections.mapIdx fun i s => showSection style settings (i + 1) s
  (String.join (shown.map (·.1)), shown.foldr (fun s n => s.2 + n) 0)

end MiniML.Tour
