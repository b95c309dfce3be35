/-
  MiniML/Proofs/Source/Agreement.lean
  ===================================
  **Terms, statements and programs** — the three ways to parse a source agree.  A bare
  statement is a term, a binding is `let x =` before a term, and a statement is a program
  with nothing else in it.

  A `let` at the front of a statement is read apart from those inside a term, with its own
  test for `in` and its own loop over arguments.  That this makes no difference is known
  from the grammar: both ways read exactly what the grammar derives, and a source has one
  derivation (`parseStatement_iff_derives`, `parseTerm_iff_spells`).
-/
import MiniML.Proofs.Source.Program

namespace MiniML

namespace Grammar

/-- A term at large is a bare statement, which begins with the first token. -/
theorem SpellsTerm.statement {ts : List Lexeme} {t : Term}
    (h : SpellsTerm .eof (ts.map Lexeme.token) t) : ∃ o, DerivesStatement .eof ts ⟨none, t, o⟩ := by
  cases ts with
  | nil => exact absurd h.length_pos (Nat.lt_irrefl 0)
  | cons l ts => exact ⟨l.offset, .term h, rfl⟩

/-- A bare statement is a term. -/
theorem DerivesStatement.term {next : Token} {ts : List Lexeme} {t : Term} {o : Nat}
    (h : DerivesStatement next ts ⟨none, t, o⟩) : SpellsTerm next (ts.map Lexeme.token) t := by
  have hspells := h.spells
  generalize ts.map Lexeme.token = words at hspells ⊢
  cases hspells with
  | term hterm => exact hterm

/-- A binding consists of `let`, its name, `=` and a term. -/
theorem derivesStatement_binding_iff {ts : List Lexeme} {x : String} {v : Term} {o : Nat} :
    DerivesStatement .eof ts ⟨some x, v, o⟩ ↔
      ∃ o₁ o₂ w, ts = ⟨.keyword .letKw, o⟩ :: ⟨.ident x, o₁⟩ :: ⟨.equals, o₂⟩ :: w ∧
        SpellsTerm .eof (w.map Lexeme.token) v := by
  constructor
  · rintro ⟨hspells, hoffset⟩
    simp only at hspells hoffset
    generalize hwords : ts.map Lexeme.token = words at hspells
    cases hspells with
    | binding x hvalue hin =>
      obtain ⟨o', ts, rfl, hname⟩ := map_token_eq_cons hwords
      obtain ⟨o₁, ts, rfl, hequals⟩ := map_token_eq_cons hname
      obtain ⟨o₂, w, rfl, rfl⟩ := map_token_eq_cons hequals
      obtain rfl : o' = o := Option.some.inj hoffset
      exact ⟨o₁, o₂, w, rfl, hvalue⟩
  · rintro ⟨o₁, o₂, w, rfl, hvalue⟩
    exact ⟨.binding x hvalue (by decide), rfl⟩

end Grammar

open Parse Grammar

/-- **The parsers agree.**  A source parses as a term exactly if it parses as a bare
    statement with this term; it parses as a binding of `x` to `v` exactly if its tokens
    are `let`, `x` and `=` before tokens that are read as the term `v`; and a source that
    parses as a statement is the program of this one statement. -/
theorem parsers_agree (source : List Glyph) :
    (∀ t, parseTerm source = .ok t ↔ ∃ o, parseStatement source = .ok ⟨none, t, o⟩) ∧
    (∀ x v o, parseStatement source = .ok ⟨some x, v, o⟩ ↔
      ∃ o₁ o₂ ts,
        scan source = .ok (⟨.keyword .letKw, o⟩ :: ⟨.ident x, o₁⟩ :: ⟨.equals, o₂⟩ :: ts) ∧
        wholeTerm (Glyph.widths source) ts = .ok v) ∧
    (∀ st, parseStatement source = .ok st → parseProgram source = .ok [st]) := by
  refine ⟨fun t => ⟨?_, ?_⟩, fun x v o => ⟨?_, ?_⟩, ?_⟩
  · intro h
    obtain ⟨ts, hscan, hspells⟩ := parseTerm_iff_spells.mp h
    obtain ⟨o, hderives⟩ := hspells.statement
    exact ⟨o, parseStatement_iff_derives.mpr ⟨ts, hscan, hderives⟩⟩
  · rintro ⟨o, h⟩
    obtain ⟨ts, hscan, hderives⟩ := parseStatement_iff_derives.mp h
    exact parseTerm_iff_spells.mpr ⟨ts, hscan, hderives.term⟩
  · intro h
    obtain ⟨ts, hscan, hderives⟩ := parseStatement_iff_derives.mp h
    obtain ⟨o₁, o₂, w, rfl, hvalue⟩ := derivesStatement_binding_iff.mp hderives
    exact ⟨o₁, o₂, w, hscan, wholeTerm_iff_spells.mpr hvalue⟩
  · rintro ⟨o₁, o₂, w, hscan, hvalue⟩
    refine parseStatement_iff_derives.mpr ⟨_, hscan, derivesStatement_binding_iff.mpr ?_⟩
    exact ⟨o₁, o₂, w, rfl, wholeTerm_iff_spells.mp hvalue⟩
  · intro st h
    obtain ⟨ts, hscan, hderives⟩ := parseStatement_iff_derives.mp h
    exact parseProgram_iff_spells.mpr ⟨ts, hscan, .last hderives⟩

/-- A value that is itself a `let` term takes the first `in`, so that the `let` before it
    binds a name. -/
theorem parsers_agree_nested :
    ∃ st, parseStatement (Glyph.ofString "let x = let y = 1 in y") = .ok st ∧
      st.binder = some "x" ∧
      parseProgram (Glyph.ofString "let x = let y = 1 in y") = .ok [st] := by
  have hst : parseStatement (Glyph.ofString "let x = let y = 1 in y") =
      .ok ⟨some "x", .letIn "y" (.int 1) (.var "y"), 0⟩ := by
    decide +kernel
  exact ⟨_, hst, rfl, (parsers_agree _).2.2 _ hst⟩

end MiniML
