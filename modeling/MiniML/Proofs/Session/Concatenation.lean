/-
  MiniML/Proofs/Session/Concatenation.lean
  ========================================
  **Programs next to each other** — two sources with a line break, `;;` and a line break
  between them are one program exactly if both are programs, and a session that runs it
  does what it does when it runs one after the other (`run_separated`).

  Nothing has to be assumed about the sources: they may be empty, end in a comment, or
  hold bytes that are no characters.
-/
import Mathlib
import MiniML.Proofs.Source.Encoding
import MiniML.Proofs.Source.Program
import MiniML.Session.Running

namespace MiniML

/-- A line break, `;;` and a line break. -/
def separator : List UInt8 := [0x0A, 0x3B, 0x3B, 0x0A]

/-! ### One program from two -/

theorem Utf8.decode_separated (s₁ s₂ : List UInt8) :
    decode (s₁ ++ separator ++ s₂) =
      decode s₁ ++ Scan.breaks ++ .char ';' :: .char '\n' :: decode s₂ := by
  have hbreak : ∀ rest, charAt? 0x0A rest = some '\n' := fun _ => rfl
  have hseparator : decode (separator ++ s₂) =
      Scan.breaks ++ .char ';' :: .char '\n' :: decode s₂ := by
    simp only [separator, decode, List.cons_append, List.nil_append, decodeFrom, hbreak]
    rfl
  have hstop : continuation? 0x0A = none := rfl
  rw [List.append_assoc, List.append_assoc, ← hseparator]
  exact decode_append hstop s₁ _

/-- The statements are those of both sources, the later ones at their offsets in the
    whole. -/
theorem parseProgram_separated {s₁ s₂ : List UInt8} {sts : List Statement} :
    parseProgram (Utf8.decode (s₁ ++ separator ++ s₂)) = .ok sts ↔
      ∃ sts₁ sts₂, parseProgram (Utf8.decode s₁) = .ok sts₁ ∧
        parseProgram (Utf8.decode s₂) = .ok sts₂ ∧
          sts = sts₁ ++ sts₂.map (Statement.move (· + (s₁.length + 4))) := by
  simp only [Grammar.parseProgram_iff_spells, Utf8.decode_separated, scan_separated,
    Utf8.widths_decode]
  constructor
  · rintro ⟨_, ⟨ts₁, ts₂, hscan₁, hscan₂, rfl⟩, hspells⟩
    obtain ⟨sts₁, sts', h₁, hmoved, rfl⟩ := Grammar.spellsProgram_append_iff.mp hspells
    obtain ⟨sts₂, h₂, rfl⟩ := Grammar.spellsProgram_move_iff.mp hmoved
    exact ⟨sts₁, sts₂, ⟨ts₁, hscan₁, h₁⟩, ⟨ts₂, hscan₂, h₂⟩, rfl⟩
  · rintro ⟨sts₁, sts₂, ⟨ts₁, hscan₁, h₁⟩, ⟨ts₂, hscan₂, h₂⟩, rfl⟩
    exact ⟨_, ⟨ts₁, ts₂, hscan₁, hscan₂, rfl⟩, h₁.append (h₂.move _) _⟩

/-! ### One run from two -/

namespace Session

/-- A run that did not fail, and another one from where it ended. -/
def Running.andThen (r : Report × Running) (next : Running → Report × Running) :
    Report × Running :=
  match r.1.error with
  | some _ => r
  | none =>
    let more := next r.2
    ({ more.1 with
        output := r.1.output ++ more.1.output
        log := r.1.log ++ more.1.log }, more.2)

namespace Running

theorem execAll_append (s : Running) (sts sts' : List Statement) :
    s.execAll (sts ++ sts') = andThen (s.execAll sts) (·.execAll sts') := by
  induction sts generalizing s with
  | nil => simp [execAll, andThen]
  | cons st rest ih =>
    rw [List.cons_append, execAll, execAll]
    cases hresult : (s.exec st).1.result with
    | error error => rfl
    | ok outcome =>
      simp only [ih]
      rcases (s.exec st).2.execAll rest with ⟨⟨output, error, log, session⟩, s₁⟩
      cases error with
      | some error => rfl
      | none => simp [andThen, String.append_assoc]

/-- Where a statement stands has no effect. -/
theorem execAll_move (s : Running) (sts : List Statement) (f : Nat → Nat) :
    s.execAll (sts.map (Statement.move f)) = s.execAll sts := by
  induction sts generalizing s with
  | nil => rfl
  | cons st rest ih =>
    have hst : s.exec (st.move f) = s.exec st := rfl
    simp only [List.map_cons, execAll, hst, ih]

theorem run_of_parse {source : List Glyph} {sts : List Statement}
    (h : parseProgram source = .ok sts) (s : Running) : s.run source = s.execAll sts := by
  rw [run, h]

end Running

/-- **Programs concatenate.**  With a line break, `;;` and a line break between them two
    sources are a program exactly if each of them is one, and its statements are theirs.
    Running it is running the first source and then, unless it fails, the second one. -/
theorem run_separated (s₁ s₂ : List UInt8) :
    (∀ sts, parseProgram (Utf8.decode (s₁ ++ separator ++ s₂)) = .ok sts ↔
      ∃ sts₁ sts₂, parseProgram (Utf8.decode s₁) = .ok sts₁ ∧
        parseProgram (Utf8.decode s₂) = .ok sts₂ ∧
          sts = sts₁ ++ sts₂.map (Statement.move (· + (s₁.length + 4)))) ∧
    ∀ sts₁ sts₂, parseProgram (Utf8.decode s₁) = .ok sts₁ →
      parseProgram (Utf8.decode s₂) = .ok sts₂ → ∀ s : Running,
        s.run (Utf8.decode (s₁ ++ separator ++ s₂)) =
          Running.andThen (s.run (Utf8.decode s₁)) (·.run (Utf8.decode s₂)) := by
  constructor
  · exact fun sts => parseProgram_separated
  · intro sts₁ sts₂ h₁ h₂ s
    have hwhole := parseProgram_separated.mpr ⟨sts₁, sts₂, h₁, h₂, rfl⟩
    have hnext : (fun s' : Running => s'.run (Utf8.decode s₂)) = (·.execAll sts₂) :=
      funext fun s' => Running.run_of_parse h₂ s'
    rw [Running.run_of_parse hwhole, Running.run_of_parse h₁, hnext, Running.execAll_append]
    simp only [Running.execAll_move]

/-- `1 # λ` and `()`: the comment ends before the separator, and `λ` has two bytes. -/
theorem run_separated_comment :
    let s₁ : List UInt8 := [0x31, 0x20, 0x23, 0x20, 0xCE, 0xBB]
    let s₂ : List UInt8 := [0x28, 0x29]
    parseProgram (Utf8.decode (s₁ ++ separator ++ s₂)) =
        .ok [⟨none, .int 1, 0⟩, ⟨none, .unit, 10⟩] ∧
      ∀ s : Running, s.run (Utf8.decode (s₁ ++ separator ++ s₂)) =
        Running.andThen (s.run (Utf8.decode s₁)) (·.run (Utf8.decode s₂)) := by
  intro s₁ s₂
  have h₁ : parseProgram (Utf8.decode s₁) = .ok [⟨none, .int 1, 0⟩] := by cbv
  have h₂ : parseProgram (Utf8.decode s₂) = .ok [⟨none, .unit, 0⟩] := by cbv
  obtain ⟨hparse, hrun⟩ := run_separated s₁ s₂
  exact ⟨(hparse _).mpr ⟨_, _, h₁, h₂, rfl⟩, hrun _ _ h₁ h₂⟩

end Session

end MiniML
