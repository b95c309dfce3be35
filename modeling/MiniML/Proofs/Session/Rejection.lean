/-
  MiniML/Proofs/Session/Rejection.lean
  ====================================
  **Rejected statements leave no trace** — a session at work whose statement was
  rejected answers all later requests as if the statement had not been there, but for
  the places of statements in the count.

  The statement moves the count, which shows in errors and in the log and nowhere else
  (`Session.exec_congr`), and it leaves the inference context with names drawn and a
  failure noted.  The next query resets the context, so it answers like a new one
  (`InferContext.Rested.query`).
-/
import Mathlib
import MiniML.Proofs.Typing.Context
import MiniML.Session.Running

namespace MiniML

/-! ### Places in the count -/

/-- The error without the place of the statement. -/
def SessionError.unnumbered : SessionError → SessionError
  | .parse e => .parse e
  | .statement _ e => .statement 0 e

/-- The entry without the place of the statement. -/
def LogEntry.unnumbered : LogEntry → LogEntry
  | .step number term regions => .step number term regions
  | .statement _ binder type steps status => .statement 0 binder type steps status

/-- The reply without the places of statements. -/
def Session.Reply.unnumbered : Reply → Reply
  | .outcome result log =>
    .outcome (result.mapError SessionError.unnumbered) (log.map LogEntry.unnumbered)
  | .report output error log =>
    .report output (error.map SessionError.unnumbered) (log.map LogEntry.unnumbered)
  | .done => .done

/-- The session as if it had not counted yet. -/
def Session.forget (s : Session) : Session := { s with count := 0 }

def Execution.unnumbered (e : Execution) : Execution :=
  ⟨e.result.mapError SessionError.unnumbered, e.log.map LogEntry.unnumbered, e.session.forget⟩

def Session.Report.unnumbered (r : Report) : Report where
  output := r.output
  error := r.error.map SessionError.unnumbered
  log := r.log.map LogEntry.unnumbered
  session := r.session.forget

namespace Session

section Count

variable {s s' : Session}

/-- What is done with an answer of inference does not depend on the count. -/
theorem conclude_forget (s : Session) (st : Statement) (answer : Except TypeError Typing) :
    (s.forget.conclude st answer).unnumbered = (s.conclude st answer).unnumbered := by
  cases answer with
  | error e => rfl
  | ok r =>
    simp only [conclude, Execution.unnumbered, List.map_append, List.map_cons, LogEntry.unnumbered]
    rfl

theorem unifyFuel_conclude (s : Session) (st : Statement) (answer : Except TypeError Typing) :
    (s.conclude st answer).session.unifyFuel = s.unifyFuel := by
  cases answer <;> rfl

theorem exec_congr (h : s.forget = s'.forget) (st : Statement) :
    (s.exec st).unnumbered = (s'.exec st).unnumbered := by
  have hforget : ∀ s : Session, (s.forget.exec st).unnumbered = (s.exec st).unnumbered :=
    fun s => conclude_forget s st _
  rw [← hforget s, h, hforget s']

theorem execAll_congr (sts : List Statement) (h : s.forget = s'.forget) :
    (s.execAll sts).unnumbered = (s'.execAll sts).unnumbered := by
  induction sts generalizing s s' with
  | nil => simp only [execAll, Report.unnumbered, h]
  | cons st rest ih =>
    have hst := exec_congr h st
    rw [execAll, execAll]
    generalize s.exec st = a at hst ⊢
    generalize s'.exec st = b at hst ⊢
    obtain ⟨ra, la, sa⟩ := a
    obtain ⟨rb, lb, sb⟩ := b
    simp only [Execution.unnumbered, Execution.mk.injEq] at hst
    obtain ⟨hresult, hlog, hsession⟩ := hst
    cases ra with
    | error e =>
      cases rb with
      | error e' =>
        have herror := Except.error.inj hresult
        simp only [Report.unnumbered, Option.map_some, herror, hlog, hsession]
      | ok o => cases hresult
    | ok o =>
      cases rb with
      | error e' => cases hresult
      | ok o' =>
        obtain rfl := Except.ok.inj hresult
        have hrest := ih hsession
        simp only [Report.unnumbered, Report.mk.injEq] at hrest ⊢
        obtain ⟨houtput, herror, hlog', hsession'⟩ := hrest
        simp only [houtput, herror, List.map_append, hlog, hlog', hsession', and_self]

theorem run_congr (h : s.forget = s'.forget) (source : List Glyph) :
    (s.run source).unnumbered = (s'.run source).unnumbered := by
  rw [run, run]
  cases parseProgram source with
  | error e => simp only [Report.unnumbered, h]
  | ok sts => exact execAll_congr sts h

end Count

/-! ### Sessions at work -/

namespace Running

/-- The context answers queries as a new one with the session's budget would. -/
def Works (s : Running) : Prop := s.context.Rested s.memory.unifyFuel

theorem works_start (maxSteps unifyFuel : Int64) : (start maxSteps unifyFuel).Works :=
  InferContext.rested_new unifyFuel

variable {s s' : Running}

/-- A session at work executes statements as its memory says. -/
theorem Works.exec (h : s.Works) (st : Statement) :
    (s.exec st).1 = s.memory.exec st ∧ (s.exec st).2.memory = (s.memory.exec st).session ∧
      (s.exec st).2.Works := by
  obtain ⟨hanswer, hrested⟩ := h.query s.memory.env st.term
  have hexec : (s.exec st).1 = s.memory.exec st := congrArg (s.memory.conclude st) hanswer
  refine ⟨hexec, congrArg Execution.session hexec, ?_⟩
  have hfuel := unifyFuel_conclude s.memory st (s.context.query s.memory.env st.term).1
  rw [Works, Running.exec, hfuel]
  exact hrested

theorem Works.execAll (h : s.Works) (sts : List Statement) :
    (s.execAll sts).1 = s.memory.execAll sts ∧
      (s.execAll sts).2.memory = (s.memory.execAll sts).session ∧ (s.execAll sts).2.Works := by
  induction sts generalizing s with
  | nil => exact ⟨rfl, rfl, h⟩
  | cons st rest ih =>
    obtain ⟨hexec, hmemory, hworks⟩ := h.exec st
    rw [Running.execAll, Session.execAll, hexec]
    cases hr : (s.memory.exec st).result with
    | error e => exact ⟨rfl, hmemory, hworks⟩
    | ok o =>
      obtain ⟨hrest, hmemory', hworks'⟩ := ih hworks
      rw [hmemory] at hrest hmemory'
      refine ⟨?_, hmemory', hworks'⟩
      simp only [hrest]

theorem Works.run (h : s.Works) (source : List Glyph) :
    (s.run source).1 = s.memory.run source ∧
      (s.run source).2.memory = (s.memory.run source).session ∧ (s.run source).2.Works := by
  rw [Running.run, Session.run]
  cases parseProgram source with
  | error e => exact ⟨rfl, rfl, h⟩
  | ok sts => exact h.execAll sts

/-- The sessions work, and they remember the same but for the count. -/
structure Twins (s s' : Running) : Prop where
  left : s.Works
  right : s'.Works
  memory : s.memory.forget = s'.memory.forget

/-- Twins give the same replies, but for places in the count, and stay twins. -/
theorem Twins.serve (h : Twins s s') (q : Request) :
    (s.serve q).1.unnumbered = (s'.serve q).1.unnumbered ∧ Twins (s.serve q).2 (s'.serve q).2 := by
  cases q with
  | exec st =>
    obtain ⟨hexec, hmemory, hworks⟩ := h.left.exec st
    obtain ⟨hexec', hmemory', hworks'⟩ := h.right.exec st
    have hst := exec_congr h.memory st
    simp only [Execution.unnumbered, Execution.mk.injEq] at hst
    obtain ⟨hresult, hlog, hsession⟩ := hst
    simp only [Running.serve, Reply.unnumbered, hexec, hexec', hresult, hlog, true_and]
    exact ⟨hworks, hworks', by rw [hmemory, hmemory', hsession]⟩
  | run source =>
    obtain ⟨hrun, hmemory, hworks⟩ := h.left.run source
    obtain ⟨hrun', hmemory', hworks'⟩ := h.right.run source
    have hsource := run_congr h.memory source
    simp only [Report.unnumbered, Report.mk.injEq] at hsource
    obtain ⟨houtput, herror, hlog, hsession⟩ := hsource
    simp only [Running.serve, Reply.unnumbered, hrun, hrun', houtput, herror, hlog, true_and]
    exact ⟨hworks, hworks', by rw [hmemory, hmemory', hsession]⟩
  | reset =>
    have hreset := congrArg Session.reset h.memory
    exact ⟨rfl, h.left, h.right, hreset⟩

theorem Twins.serveAll (h : Twins s s') (qs : List Request) :
    (s.serveAll qs).1.map Reply.unnumbered = (s'.serveAll qs).1.map Reply.unnumbered ∧
      Twins (s.serveAll qs).2 (s'.serveAll qs).2 := by
  induction qs generalizing s s' with
  | nil => exact ⟨rfl, h⟩
  | cons q rest ih =>
    obtain ⟨hreply, hnext⟩ := h.serve q
    obtain ⟨hrest, hlast⟩ := ih hnext
    rw [Running.serveAll, Running.serveAll, List.map_cons, List.map_cons, hreply, hrest]
    exact ⟨rfl, hlast⟩

theorem Works.twins (h : s.Works) : Twins s s := ⟨h, h, rfl⟩

/-- A session that has served requests still works. -/
theorem works_serveAll (maxSteps unifyFuel : Int64) (qs : List Request) :
    ((start maxSteps unifyFuel).serveAll qs).2.Works :=
  ((works_start maxSteps unifyFuel).twins.serveAll qs).2.left

/-- A statement is rejected because it has no type; nothing is logged, and the session
    remembers what it did, one statement later. -/
theorem memory_of_rejected {st : Statement} {e : SessionError}
    (h : (s.exec st).1.result = .error e) :
    (s.exec st).2.memory = { s.memory with count := s.memory.count + 1 } ∧
      (s.exec st).1.log = [] := by
  rw [Running.exec] at h ⊢
  cases hq : (s.context.query s.memory.env st.term).1 with
  | error e => exact ⟨rfl, rfl⟩
  | ok r =>
    rw [hq] at h
    cases h

/-- **A rejected statement leaves no trace.**  A session at work that rejects a
    statement, whatever it has served before, remembers what it did but for the count.
    To later requests it gives the replies that it would have given without the
    statement, and ends up with the same memory, but for places in the count. -/
theorem exec_rejected {maxSteps unifyFuel : Int64} {before : List Request} {s : Running}
    (hs : ((start maxSteps unifyFuel).serveAll before).2 = s) {st : Statement}
    {e : SessionError} (he : (s.exec st).1.result = .error e) :
    (s.exec st).2.memory = { s.memory with count := s.memory.count + 1 } ∧
      (s.exec st).1.log = [] ∧
      ∀ later : List Request,
        ((s.exec st).2.serveAll later).1.map Reply.unnumbered =
          (s.serveAll later).1.map Reply.unnumbered ∧
        ((s.exec st).2.serveAll later).2.memory.forget = (s.serveAll later).2.memory.forget := by
  have hworks : s.Works := hs ▸ works_serveAll maxSteps unifyFuel before
  obtain ⟨hmemory, hlog⟩ := memory_of_rejected he
  refine ⟨hmemory, hlog, fun later => ?_⟩
  have htwins : Twins (s.exec st).2 s :=
    ⟨(hworks.exec st).2.2, hworks, by rw [hmemory]; rfl⟩
  obtain ⟨hreplies, hlast⟩ := htwins.serveAll later
  exact ⟨hreplies, hlast.memory⟩

/-- A session after `let x = 1`. -/
def withOne : Running := ((start 0 0).serveAll [.exec ⟨some "x", .int 1, 0⟩]).2

/-- `x 2`. -/
def misapplied : Statement := ⟨none, .app (.var "x") (.int 2), 0⟩

/-- `x 2` is rejected; the context notes the failure and has drawn a name, but `λy. y` is
    executed as before. -/
theorem exec_rejected_misapplied :
    (∃ e, (withOne.exec misapplied).1.result = .error e) ∧
      (withOne.exec misapplied).2.context.lastError.isSome = true ∧
      (withOne.exec misapplied).2.context.supply ≠ withOne.context.supply ∧
      ((withOne.exec misapplied).2.serveAll [.exec ⟨none, .abs "y" (.var "y"), 0⟩]).1.map
          Reply.unnumbered =
        (withOne.serveAll [.exec ⟨none, .abs "y" (.var "y"), 0⟩]).1.map Reply.unnumbered := by
  have hnone : (withOne.exec misapplied).1.result.toOption.isNone = true := by cbv
  have hfailure : (withOne.exec misapplied).2.context.lastError.isSome = true := by cbv
  have hdrawn : (withOne.exec misapplied).2.context.supply = ⟨"T", 2⟩ := by cbv
  have hbefore : withOne.context.supply = ⟨"T", 0⟩ := by cbv
  cases h : (withOne.exec misapplied).1.result with
  | ok o =>
    rw [h] at hnone
    cases hnone
  | error e =>
    refine ⟨⟨e, rfl⟩, hfailure, by rw [hdrawn, hbefore]; decide, ?_⟩
    exact ((exec_rejected rfl h).2.2 _).1

end Running

end Session

end MiniML
