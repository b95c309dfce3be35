/-
  MiniML/Session/Running.lean
  ===========================
  **Sessions at work** — a session infers the types of all its statements in one
  inference context, which every statement leaves in another state: with names drawn,
  and with a failure noted if there was one.  None of this is part of what the session
  remembers.  Evaluation has nothing of the kind: every run names its binders anew.

  A session at work serves requests: to execute a statement, to run a program, and to
  start again.  Starting again forgets what the session remembers and leaves the
  context as it is.

  A program may also be run to a writer, which takes the line of each outcome as soon as
  there is one, and may refuse it.  The run ends there.
-/
import MiniML.Session
import MiniML.Typing.Context

namespace MiniML

/-- What a session remembers, and the context in which it infers types. -/
structure Session.Running where
  memory : Session
  context : InferContext

namespace Session.Running

def start (maxSteps unifyFuel : Int64) : Running where
  memory := { maxSteps, unifyFuel }
  context := { fuel := unifyFuel }

def exec (s : Running) (st : Statement) : Execution × Running :=
  let q := s.context.query s.memory.env st.term
  let e := s.memory.conclude st q.1
  (e, ⟨e.session, q.2⟩)

def execAll (s : Running) : List Statement → Report × Running
  | [] => ({ session := s.memory }, s)
  | st :: rest =>
    let e := s.exec st
    match e.1.result with
    | .error error => ({ error := some error, log := e.1.log, session := e.1.session }, e.2)
    | .ok outcome =>
      let more := e.2.execAll rest
      ({ more.1 with
          output := outcome.text ++ "\n" ++ more.1.output
          log := e.1.log ++ more.1.log }, more.2)

def run (s : Running) (source : List Glyph) : Report × Running :=
  match parseProgram source with
  | .error e => ({ error := some (.parse e), session := s.memory }, s)
  | .ok statements => s.execAll statements

/-- Forgets all statements; the context stays. -/
def reset (s : Running) : Running := { s with memory := s.memory.reset }

end Session.Running

/-! ### Writers -/

/-- Something that texts are written to: what becomes of it, and why it failed if it
    did.  A text that is refused may have been written in part. -/
structure Writer (ω : Type) where
  write : ω → String → ω × Option String

/-- Why running a program to a writer stops. -/
inductive RunError where
  | session (error : SessionError)
  | write (fault : String)
deriving DecidableEq, Repr

def RunError.message : RunError → String
  | .session e => e.message
  | .write fault => "write: " ++ fault

namespace Session.Running

/-- What running a program to a writer leaves behind. -/
structure Delivery (ω : Type) where
  target : ω
  error : Option RunError := none
  log : List LogEntry := []
  session : Running

/-- Executes statements in order and writes a line for each outcome, up to the first
    statement that is rejected or the first line that is refused. -/
def writeAll {ω : Type} (w : Writer ω) (target : ω) (s : Running) : List Statement → Delivery ω
  | [] => { target, session := s }
  | st :: rest =>
    let e := s.exec st
    match e.1.result with
    | .error error => { target, error := some (.session error), log := e.1.log, session := e.2 }
    | .ok outcome =>
      -- by now the statement has been executed, whatever becomes of its line
      match w.write target (outcome.text ++ "\n") with
      | (target, some fault) =>
        { target, error := some (.write fault), log := e.1.log, session := e.2 }
      | (target, none) =>
        let more := e.2.writeAll w target rest
        { more with log := e.1.log ++ more.log }

def runTo {ω : Type} (w : Writer ω) (target : ω) (s : Running) (source : List Glyph) :
    Delivery ω :=
  match parseProgram source with
  | .error e => { target, error := some (.session (.parse e)), session := s }
  | .ok statements => s.writeAll w target statements

end Session.Running

/-! ### Requests -/

namespace Session

/-- What a session is asked to do. -/
inductive Request where
  | exec (statement : Statement)
  | run (source : List Glyph)
  | reset

inductive Reply where
  | outcome (result : Except SessionError Outcome) (log : List LogEntry)
  | report (output : String) (error : Option SessionError) (log : List LogEntry)
  | done

def Running.serve (s : Running) : Request → Reply × Running
  | .exec st =>
    let e := s.exec st
    (.outcome e.1.result e.1.log, e.2)
  | .run source =>
    let r := s.run source
    (.report r.1.output r.1.error r.1.log, r.2)
  | .reset => (.done, s.reset)

/-- Serves requests one after the other. -/
def Running.serveAll (s : Running) : List Request → List Reply × Running
  | [] => ([], s)
  | q :: rest =>
    let a := s.serve q
    let more := a.2.serveAll rest
    (a.1 :: more.1, more.2)

end Session

end MiniML
