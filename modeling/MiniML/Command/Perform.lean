/-
  MiniML/Command/Perform.lean
  ===========================
  **Performing commands** — what a command line does in a file tree: the text that it
  writes, the error that it ends with, and what it logs.  Text that was written before
  an error stays written.

  The settings of a command come from the file that `--config` names, or else from the
  file that the search finds; flags win over them.
-/
import MiniML.Command.Arguments
import MiniML.Command.Tour
import MiniML.Session.Running
import MiniML.Settings.Load
import MiniML.Term.Outline

namespace MiniML

inductive CommandError where
  | usage (error : UsageError)
  | settings (error : SettingsError)
  | negativeSteps (n : Int64)
  | unknownColor (name : String)
  | parse (source : String) (error : ParseError)
  | notTypable (fault : TypeFault)
  | read (file : String) (fault : ReadFault)
  | session (file : String) (error : SessionError)
  /-- Examples of the tour that did not come out as meant. -/
  | tour (count : Nat)
deriving DecidableEq, Repr

def CommandError.message : CommandError → String
  | .usage e => e.message
  | .settings e => "failed to load config: " ++ e.message
  | .negativeSteps n => "--steps must not be negative: " ++ decimal n
  | .unknownColor c => "--color must be auto, always or never: " ++ Text.quoted c
  | .parse source e => "failed to parse term " ++ Text.quoted source ++ ": " ++ e.message
  | .notTypable fault => "Not typable: " ++ fault.message
  | .read file fault => "failed to read " ++ file ++ ": " ++ fault.message file
  | .session file e => "failed to run " ++ file ++ ": " ++ e.message
  | .tour n => toString n ++ " demos did not behave as expected"

structure Transcript where
  output : String := ""
  error : Option CommandError := none
  log : List LogEntry := []

/-- The transcript of a command that fails at once. -/
def Transcript.failed (e : CommandError) : Transcript := { error := some e }

/-- The transcript with a text written before it. -/
def Transcript.after (text : String) (t : Transcript) : Transcript :=
  { t with output := text ++ t.output }

namespace Options

/-- The settings before flags are taken into account. -/
def baseSettings (o : Options) (tree : FileTree) : Except SettingsError Settings :=
  if o.config = "" then (Settings.find tree ".").map (·.2) else Settings.load tree o.config

/-- The settings that hold for a command.  A negative number of steps is found before
    an unknown colour. -/
def settings (o : Options) (tree : FileTree) : Except CommandError Settings :=
  match o.baseSettings tree with
  | .error e => .error (.settings e)
  | .ok base =>
    let steps := o.steps.getD base.maxSteps
    let color := o.color.getD base.color.text
    if steps < 0 then .error (.negativeSteps steps)
    else
      match ColorMode.ofText? color with
      | none => .error (.unknownColor color)
      | some mode =>
        .ok { base with maxSteps := steps, color := mode, debug := o.debug.getD base.debug }

end Options

namespace Command

def typeOf (settings : Settings) (t : Term) : Except CommandError Ty :=
  match inferType (unifyBudget settings.unifyFuel) ∅ t with
  | .ok typing => .ok typing.type
  | .error e => .error (.notTypable e.fault)

/-- A line of a report: a label, padded to a common width, and a text. -/
def line (style : Style) (label blanks : String) (text : String) : String :=
  style.paint .label label ++ blanks ++ text ++ "\n"

/-- Evaluates a term and reports its value, and its status if that is not a normal
    form. -/
def evaluate (style : Style) (settings : Settings) (t : Term) : Transcript :=
  let r := evalWith
    (fun log n c => LogEntry.step n c.term c.store.size :: log) [] t .empty settings.maxSteps
  let status := match r.1.status with
    | .normalForm => ""
    | status =>
      line style "Status:" " "
        (style.paint .status status.text ++ " after " ++ toString r.1.steps ++ " steps")
  { output := line style "Result:" " " (style.paint .term r.1.final.term.text) ++ status
    log := r.2.reverse }

/-- Reports a term: as it was read, its structure and its type if they are asked for,
    and its value. -/
def eval (style : Style) (settings : Settings) (o : Options) (source : String) : Transcript :=
  match parseTerm (Glyph.ofString source) with
  | .error e => .failed (.parse source e)
  | .ok t =>
    let input := line style "Input:" "  " (style.paint .term t.text)
    let outline := if o.ast then t.outline ++ "\n" else ""
    let rest :=
      if o.typecheck then
        match typeOf settings t with
        | .error e => .failed e
        | .ok type =>
          (evaluate style settings t).after (line style "Type:" "   " (style.paint .type type.text))
      else evaluate style settings t
    rest.after (input ++ outline)

def type (style : Style) (settings : Settings) (source : String) : Transcript :=
  match parseTerm (Glyph.ofString source) with
  | .error e => .failed (.parse source e)
  | .ok t =>
    match typeOf settings t with
    | .error e => .failed e
    | .ok type => { output := style.paint .type type.text ++ "\n" }

/-- Runs the program in a file in a session of its own. -/
def run (settings : Settings) (tree : FileTree) (file : String) : Transcript :=
  match tree.read file with
  | .error fault => .failed (.read file fault)
  | .ok source =>
    let session := Session.Running.start settings.maxSteps settings.unifyFuel
    let r := (session.run source).1
    { output := r.output, error := r.error.map (.session file), log := r.log }

def demo (style : Style) (settings : Settings) : Transcript :=
  let r := Tour.run style settings
  { output := r.1, error := if r.2 = 0 then none else some (.tour r.2) }

def usage : String :=
  "Usage:\n" ++
  "  plambda eval [--steps N] [--ast] [--typecheck] <term>\n" ++
  "  plambda type <term>\n" ++
  "  plambda run [--steps N] <file>\n" ++
  "  plambda demo\n" ++
  "\n" ++
  "Flags of every command:\n" ++
  "  --config PATH   a plambda.toml or plambda.yaml file\n" ++
  "  --color MODE    auto, always or never\n" ++
  "  -d, --debug     log every step\n"

/-- What an action does under the options.  `terminal` tells whether its output goes
    to a terminal. -/
def perform (terminal : Bool) (tree : FileTree) (action : Action) (o : Options) : Transcript :=
  match o.settings tree with
  | .error e => .failed e
  | .ok settings =>
    let style : Style := ⟨settings.color.colors terminal⟩
    let t := match action with
      | .eval source => eval style settings o source
      | .type source => type style settings source
      | .run file => run settings tree file
      | .demo => demo style settings
    if settings.debug then t else { t with log := [] }

def performLine (terminal : Bool) (tree : FileTree) (args : List String) : Transcript :=
  match Invocation.ofArguments args with
  | .error e => .failed (.usage e)
  | .ok .help => { output := usage }
  | .ok (.perform action o) => perform terminal tree action o

end Command

end MiniML
