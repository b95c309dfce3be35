/-
  MiniML/Proofs/Session/Writing.lean
  ==================================
  **Programs that are run to a writer** — such a run does what a run does that only
  reports, as long as the writer takes every line (`writeAll_of_taken`).  If it refuses
  one, then the statement of this line is the last one that has been executed, and the
  run is that of the program up to there (`writeAll_of_refused`).

  What a run reports is what it leaves in a transcript (`runTo_transcript`), and programs
  next to each other are run one after the other to any writer (`runTo_separated`).
-/
import MiniML.Proofs.Session.Concatenation

namespace MiniML

section Writer

variable {ω : Type}

/-- Writes texts in order, up to the first one that is refused. -/
def Writer.writeLines (w : Writer ω) (target : ω) : List String → ω × Option String
  | [] => (target, none)
  | line :: rest =>
    match w.write target line with
    | (target, some fault) => (target, some fault)
    | (target, none) => w.writeLines target rest

/-- The writer that keeps all it is given. -/
def Writer.transcript : Writer String := ⟨fun text more => (text ++ more, none)⟩

theorem Writer.writeLines_transcript (text : String) (lines : List String) :
    transcript.writeLines text lines = (text ++ String.join lines, none) := by
  induction lines generalizing text with
  | nil => simp [writeLines]
  | cons line rest ih =>
    change transcript.writeLines (text ++ line) rest = _
    rw [ih]
    simp [String.append_assoc]

end Writer

namespace Session.Running

variable {ω : Type} {w : Writer ω} {target target' : ω} {s : Running} {sts : List Statement}

/-- The lines of the outcomes, up to the first statement that is rejected. -/
def lines (s : Running) : List Statement → List String
  | [] => []
  | st :: rest =>
    match (s.exec st).1.result with
    | .error _ => []
    | .ok outcome => (outcome.text ++ "\n") :: (s.exec st).2.lines rest

theorem output_execAll (s : Running) (sts : List Statement) :
    (s.execAll sts).1.output = String.join (s.lines sts) := by
  induction sts generalizing s with
  | nil => rfl
  | cons st rest ih =>
    rw [execAll, lines]
    cases (s.exec st).1.result with
    | error error => rfl
    | ok outcome => simp [ih]

/-- **A run whose lines are all taken** is the run that reports them. -/
theorem writeAll_of_taken (h : w.writeLines target (s.lines sts) = (target', none)) :
    s.writeAll w target sts =
      { target := target'
        error := (s.execAll sts).1.error.map .session
        log := (s.execAll sts).1.log
        session := (s.execAll sts).2 } := by
  induction sts generalizing s target with
  | nil =>
    cases h
    rfl
  | cons st rest ih =>
    rw [lines] at h
    rw [writeAll, execAll]
    cases hresult : (s.exec st).1.result with
    | error error =>
      rw [hresult] at h
      cases h
      rfl
    | ok outcome =>
      simp only [hresult, Writer.writeLines] at h
      rcases hwrite : w.write target (outcome.text ++ "\n") with ⟨next, _ | fault⟩
      · rw [hwrite] at h
        simp only [hwrite, ih h]
      · rw [hwrite] at h
        cases h

/-- **A run that has a line refused** is the run of the program up to the statement of
    this line: the statement was accepted and executed, and nothing after it was. -/
theorem writeAll_of_refused {fault : String}
    (h : w.writeLines target (s.lines sts) = (target', some fault)) :
    ∃ before st after, sts = before ++ st :: after ∧
      (w.writeLines target (s.lines before)).2 = none ∧
      (s.execAll (before ++ [st])).1.error = none ∧
      s.writeAll w target sts =
        { target := target'
          error := some (.write fault)
          log := (s.execAll (before ++ [st])).1.log
          session := (s.execAll (before ++ [st])).2 } := by
  induction sts generalizing s target with
  | nil => cases h
  | cons st rest ih =>
    rw [lines] at h
    cases hresult : (s.exec st).1.result with
    | error error =>
      rw [hresult] at h
      cases h
    | ok outcome =>
      simp only [hresult, Writer.writeLines] at h
      rcases hwrite : w.write target (outcome.text ++ "\n") with ⟨next, _ | fault'⟩
      · -- the line was taken, so the refused one belongs to a later statement
        rw [hwrite] at h
        obtain ⟨before, st', after, rfl, htaken, herror, hrun⟩ := ih h
        refine ⟨st :: before, st', after, rfl, ?_, ?_, ?_⟩
        · simp only [lines, hresult, Writer.writeLines, hwrite, htaken]
        · simp only [List.cons_append, execAll, hresult, herror]
        · simp only [List.cons_append, writeAll, execAll, hresult, hwrite, hrun]
      · rw [hwrite] at h
        cases h
        refine ⟨[], st, rest, rfl, rfl, ?_, ?_⟩
        · simp only [List.nil_append, execAll, hresult]
        · simp only [List.nil_append, writeAll, execAll, hresult, hwrite, List.append_nil]

/-- The report of a run is what it leaves in a transcript. -/
theorem runTo_transcript (text : String) (s : Running) (source : List Glyph) :
    s.runTo .transcript text source =
      { target := text ++ (s.run source).1.output
        error := (s.run source).1.error.map .session
        log := (s.run source).1.log
        session := (s.run source).2 } := by
  rw [runTo, run]
  cases parseProgram source with
  | error e => simp
  | ok sts =>
    rw [output_execAll]
    exact writeAll_of_taken (Writer.writeLines_transcript text (s.lines sts))

/-! ### Programs next to each other -/

/-- A run that did not fail, and another one from where it ended. -/
def Delivery.andThen (d : Delivery ω) (next : ω → Running → Delivery ω) : Delivery ω :=
  match d.error with
  | some _ => d
  | none =>
    let more := next d.target d.session
    { more with log := d.log ++ more.log }

theorem writeAll_append (w : Writer ω) (target : ω) (s : Running) (sts sts' : List Statement) :
    s.writeAll w target (sts ++ sts') =
      (s.writeAll w target sts).andThen fun target s => s.writeAll w target sts' := by
  induction sts generalizing s target with
  | nil => simp [writeAll, Delivery.andThen]
  | cons st rest ih =>
    rw [List.cons_append, writeAll, writeAll]
    cases hresult : (s.exec st).1.result with
    | error error => rfl
    | ok outcome =>
      rcases hwrite : w.write target (outcome.text ++ "\n") with ⟨next, _ | fault⟩
      · simp only [hwrite, ih]
        rcases (s.exec st).2.writeAll w next rest with ⟨target, error, log, session⟩
        cases error with
        | some error => rfl
        | none => simp [Delivery.andThen]
      · simp only [hwrite, Delivery.andThen]

theorem writeAll_move (w : Writer ω) (target : ω) (s : Running) (sts : List Statement)
    (f : Nat → Nat) : s.writeAll w target (sts.map (Statement.move f)) = s.writeAll w target sts := by
  induction sts generalizing s target with
  | nil => rfl
  | cons st rest ih =>
    have hst : s.exec (st.move f) = s.exec st := rfl
    simp only [List.map_cons, writeAll, hst, ih]

/-- **Programs concatenate, whatever the writer does**: two programs with the separator
    between them are run to it like the first and, if that did not fail, the second. -/
theorem runTo_separated (w : Writer ω) (target : ω) (s : Running) {s₁ s₂ : List UInt8}
    {sts₁ sts₂ : List Statement} (h₁ : parseProgram (Utf8.decode s₁) = .ok sts₁)
    (h₂ : parseProgram (Utf8.decode s₂) = .ok sts₂) :
    s.runTo w target (Utf8.decode (s₁ ++ separator ++ s₂)) =
      (s.runTo w target (Utf8.decode s₁)).andThen fun target s =>
        s.runTo w target (Utf8.decode s₂) := by
  have hwhole := parseProgram_separated.mpr ⟨sts₁, sts₂, h₁, h₂, rfl⟩
  simp only [runTo, hwhole, h₁, h₂, writeAll_append, writeAll_move]

end Session.Running

end MiniML
