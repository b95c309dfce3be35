/-
  MiniML/Proofs/Source/Program.lean
  =================================
  **The grammar of programs** — the statements that a sequence of tokens spells, and that
  the parser reads exactly these (`program_iff_spells`).

      statement ::= let ident = term | term
      program   ::= statements separated by ;; , some of them empty

  No term contains `;;`, and it makes no difference to a term whether `;;` or the end of
  the input closes it.  So a program breaks at any `;;` into two programs
  (`spellsProgram_append_iff`).
-/
import MiniML.Proofs.Source.Grammar
import MiniML.Proofs.Source.Separation

namespace MiniML

/-- The same statement at another offset. -/
def Statement.move (f : Nat → Nat) (st : Statement) : Statement := { st with offset := f st.offset }

namespace Grammar

open Parse

/-! ### Terms and what closes them -/

/-- The token after an atom is the first of the words behind it, or, if there are none, the
    one behind all. -/
theorem SpellsAtom.ahead {next next' : Token} {w ws : List Token} {t : Term}
    (h : SpellsAtom (ahead ws next) w t) (h' : SpellsAtom next' w t) :
    SpellsAtom (Grammar.ahead ws next') w t := by
  cases ws with
  | nil => exact h'
  | cons => exact h

mutual

/-- It makes no difference to a term which closing token follows it. -/
theorem SpellsTerm.before {next next' : Token} {w : List Token} {t : Term}
    (h : SpellsTerm next w t) (hnext : next' ∈ closers) : SpellsTerm next' w t := by
  match h with
  | .application func args _ =>
    exact .application (func.ahead (func.before hnext)) (args.before hnext) hnext

theorem SpellsAtoms.before {next next' : Token} {w : List Token} {as : List Term}
    (h : SpellsAtoms next w as) (hnext : next' ∈ closers) : SpellsAtoms next' w as := by
  match h with
  | .nil => exact .nil
  | .cons first others => exact .cons (first.ahead (first.before hnext)) (others.before hnext)

theorem SpellsAtom.before {next next' : Token} {w : List Token} {t : Term}
    (h : SpellsAtom next w t) (hnext : next' ∈ closers) : SpellsAtom next' w t := by
  match h with
  | .ident x => exact .ident x
  | .int fits => exact .int fits
  | .unit => exact .unit
  | .nil => exact .nil
  | .enclosed inner => exact .enclosed inner
  | .lambda sign x body => exact .lambda sign x (body.before hnext)
  | .letIn x value body => exact .letIn x value (body.before hnext)
  | @SpellsAtom.branch _ k build w₁ w₂ w₃ c t e sign cond first second =>
    exact .branch sign cond first (second.before hnext)
  | @SpellsAtom.unary _ op build w a sign operand => exact .unary sign (operand.before hnext)
  | @SpellsAtom.binary _ op build w₁ w₂ a b sign left right =>
    exact .binary sign (left.ahead (left.before hnext)) (right.before hnext)

end

mutual

/-- No term contains a separator. -/
theorem SpellsTerm.no_semi {next : Token} {w : List Token} {t : Term} (h : SpellsTerm next w t) :
    .semi ∉ w := by
  match h with
  | .application func args _ => simp [func.no_semi, args.no_semi]

theorem SpellsAtoms.no_semi {next : Token} {w : List Token} {as : List Term}
    (h : SpellsAtoms next w as) : .semi ∉ w := by
  match h with
  | .nil => simp
  | .cons first others => simp [first.no_semi, others.no_semi]

theorem SpellsAtom.no_semi {next : Token} {w : List Token} {t : Term} (h : SpellsAtom next w t) :
    .semi ∉ w := by
  match h with
  | .ident x => simp
  | .int fits => simp
  | .unit => simp
  | .nil => simp
  | .enclosed inner => simp [inner.no_semi]
  | .lambda sign x body => simp [body.no_semi]
  | .letIn x value body => simp [value.no_semi, body.no_semi]
  | @SpellsAtom.branch _ k build w₁ w₂ w₃ c t e sign cond first second =>
    simp [cond.no_semi, first.no_semi, second.no_semi]
  | @SpellsAtom.unary _ op build w a sign operand =>
    cases sign <;> simp [operand.no_semi]
  | @SpellsAtom.binary _ op build w₁ w₂ a b sign left right =>
    cases sign <;> simp [left.no_semi, right.no_semi]

end

/-- An atom that begins with `let` is a `let` term. -/
theorem SpellsAtom.of_let {next : Token} {w : List Token} {t : Term}
    (h : SpellsAtom next (.keyword .letKw :: w) t) :
    ∃ x w₁ w₂ v b, w = .ident x :: .equals :: (w₁ ++ .keyword .inKw :: w₂) ∧
      t = .letIn x v b ∧ SpellsTerm (.keyword .inKw) w₁ v ∧ SpellsTerm next w₂ b := by
  cases h with
  | letIn x value body => exact ⟨x, _, _, _, _, rfl, rfl, value, body⟩
  | branch sign => cases sign
  | unary sign => cases sign
  | binary sign => cases sign

/-! ### Statements -/

/-- The words spell a statement that binds this name, or none, to the term. -/
inductive SpellsStatement : Token → List Token → Option String → Term → Prop where
  | term {next : Token} {w : List Token} {t : Term} (h : SpellsTerm next w t) :
      SpellsStatement next w none t
  | binding {next : Token} {w : List Token} {v : Term} (x : String) (h : SpellsTerm next w v)
      (hnext : next ≠ .keyword .inKw) :
      SpellsStatement next (.keyword .letKw :: .ident x :: .equals :: w) (some x) v

/-- The lexemes spell the statement, which begins where they do. -/
structure DerivesStatement (next : Token) (w : List Lexeme) (st : Statement) : Prop where
  spells : SpellsStatement next (w.map Lexeme.token) st.binder st.term
  offset : w.head?.map Lexeme.offset = some st.offset

theorem SpellsStatement.before {next next' : Token} {w : List Token} {b : Option String} {t : Term}
    (h : SpellsStatement next w b t) (hnext : next' ∈ closers) (hin : next' ≠ .keyword .inKw) :
    SpellsStatement next' w b t := by
  cases h with
  | term h => exact .term (h.before hnext)
  | binding x h => exact .binding x (h.before hnext) hin

theorem SpellsStatement.no_semi {next : Token} {w : List Token} {b : Option String} {t : Term}
    (h : SpellsStatement next w b t) : .semi ∉ w := by
  cases h with
  | term h => exact h.no_semi
  | binding x h => simp [h.no_semi]

section Reading

variable {stop o : Nat} {ts rest : List Lexeme}

theorem gives_readTerm (stop : Nat) : Gives SpellsTerm (readTerm stop) :=
  fun _ _ _ h => readTerm_iff_derives.mp h

/-- What the parser reads as a statement spells it. -/
theorem derives_of_statement {st : Statement} (h : statement stop ts = .ok (st, rest)) :
    ∃ w, ts = w ++ rest ∧ DerivesStatement (following rest) w st := by
  rw [statement.eq_def] at h
  simp only at h
  split at h
  · -- a statement that begins with `let`: `in` decides what it is
    rename_i o ts
    obtain ⟨⟨x, v, rest₁⟩, hbinding, h⟩ := bind_ok h
    obtain ⟨o₁, o₂, w₁, rfl, hw₁⟩ := binding_ok (gives_readTerm stop) hbinding
    simp only at h
    split at h
    · rename_i o₃ rest₂ _
      obtain ⟨⟨b, rest₃⟩, hbody, h⟩ := bind_ok h
      obtain ⟨⟨t, rest₄⟩, hargs, h⟩ := bind_ok h
      cases h
      obtain ⟨w₂, rfl, hw₂⟩ := gives_readTerm stop hbody
      obtain ⟨ws, rfl, as, has, rfl, hend⟩ := (gives_grammar stop _).2.1 _ hargs
      refine ⟨⟨.keyword .letKw, o⟩ :: ⟨.ident x, o₁⟩ :: ⟨.equals, o₂⟩ ::
        (w₁ ++ ⟨.keyword .inKw, o₃⟩ :: (w₂ ++ ws)), by simp, .term ?_, rfl⟩
      rw [following_append] at hw₂
      have hterm := SpellsTerm.application (.letIn x hw₁ hw₂) has hend
      simpa using hterm
    · rename_i hnot
      cases h
      refine ⟨⟨.keyword .letKw, o⟩ :: ⟨.ident x, o₁⟩ :: ⟨.equals, o₂⟩ :: w₁, rfl,
        .binding x hw₁ ?_, rfl⟩
      -- a binding is read only where `in` does not follow
      intro hin
      cases rest with
      | nil => cases hin
      | cons l rest =>
        obtain ⟨token, o₃⟩ := l
        obtain rfl : token = .keyword .inKw := hin
        exact hnot o₃ rest rfl
  · obtain ⟨⟨t, rest₁⟩, hread, h⟩ := bind_ok h
    cases h
    obtain ⟨w, rfl, hw⟩ := gives_readTerm stop hread
    refine ⟨w, rfl, .term hw, ?_⟩
    cases w with
    | nil => exact absurd hw.length_pos (Nat.lt_irrefl 0)
    | cons l w => rfl

theorem statement_other {l : Lexeme} (h : l.token ≠ .keyword .letKw) :
    statement stop (l :: ts) = (do
      let (t, rest) ← readTerm stop (l :: ts)
      return (⟨none, t, l.offset⟩, rest)) := by
  rw [statement.eq_def]
  split
  · rename_i hcons
    cases hcons
    exact absurd rfl h
  · rfl

/-- A binding ends before anything but `in`. -/
theorem statement_of_value {x : String} {v : Term} (hv : binding stop (readTerm stop) ts = .ok (x, v, rest))
    (hin : following rest ≠ .keyword .inKw) :
    statement stop (⟨.keyword .letKw, o⟩ :: ts) = .ok (⟨some x, v, o⟩, rest) := by
  rw [statement.eq_def]
  simp only [hv, ok_bind]
  split
  · exact absurd rfl hin
  · rfl

/-- Before `in` it is a `let` term, which may be applied. -/
theorem statement_of_letTerm {x : String} {v b t : Term} {o' : Nat} {ts₁ ts₂ : List Lexeme}
    (hv : binding stop (readTerm stop) ts = .ok (x, v, ⟨.keyword .inKw, o'⟩ :: ts₁))
    (hb : readTerm stop ts₁ = .ok (b, ts₂))
    (hargs : application stop (depthFor ts₂) (.letIn x v b) ts₂ = .ok (t, rest)) :
    statement stop (⟨.keyword .letKw, o⟩ :: ts) = .ok (⟨none, t, o⟩, rest) := by
  rw [statement.eq_def]
  simp only [hv, hb, hargs, ok_bind]
  rfl

/-- A term that begins with `let` is read as a statement, arguments and all. -/
theorem statement_of_spellsTerm {w : List Lexeme} {t : Term}
    (h : SpellsTerm (following rest) (.keyword .letKw :: w.map Lexeme.token) t) :
    statement stop (⟨.keyword .letKw, o⟩ :: (w ++ rest)) = .ok (⟨none, t, o⟩, rest) := by
  generalize hwords : Token.keyword .letKw :: w.map Lexeme.token = words at h
  cases h with
  | application func args maximal =>
    obtain ⟨token, ws, rfl, -⟩ := func.starts
    rw [List.cons_append, List.cons.injEq] at hwords
    obtain ⟨rfl, hwords⟩ := hwords
    obtain ⟨x, w₁, w₂, v, b, rfl, rfl, hvalue, hbody⟩ := func.of_let
    simp only [List.cons_append, List.append_assoc] at hwords
    obtain ⟨o₁, w, rfl, hequals⟩ := map_token_eq_cons hwords
    obtain ⟨o₂, w, rfl, hparts⟩ := map_token_eq_cons hequals
    obtain ⟨w₁, o₃, w₃, rfl, rfl, hbehind⟩ := map_token_eq_append_cons hparts
    obtain ⟨w₂, ws, rfl, rfl, rfl⟩ := List.map_eq_append_iff.mp hbehind
    rw [← following_append] at hbody
    have hv : readTerm stop (w₁ ++ ⟨.keyword .inKw, o₃⟩ :: (w₂ ++ (ws ++ rest))) =
        .ok (v, ⟨.keyword .inKw, o₃⟩ :: (w₂ ++ (ws ++ rest))) :=
      readTerm_iff_derives.mpr ⟨w₁, rfl, hvalue⟩
    have hb : readTerm stop (w₂ ++ (ws ++ rest)) = .ok (b, ws ++ rest) :=
      readTerm_iff_derives.mpr ⟨w₂, rfl, hbody⟩
    have hroom : 2 * ws.length < depthFor (ws ++ rest) := by
      rw [depthFor, List.length_append]
      omega
    have hargs := (takes_grammar stop _).2.1 (.letIn x v b) hroom ⟨_, args, rfl, maximal⟩
    simp only [List.cons_append, List.append_assoc]
    exact statement_of_letTerm (binding_of_part x hv) hb hargs

/-- What spells a statement is read as this statement. -/
theorem statement_of_derives {w : List Lexeme} {st : Statement}
    (h : DerivesStatement (following rest) w st) : statement stop (w ++ rest) = .ok (st, rest) := by
  obtain ⟨binder, t, o⟩ := st
  obtain ⟨hspells, hoffset⟩ := h
  simp only at hspells hoffset
  cases w with
  | nil => cases hoffset
  | cons l w =>
    obtain ⟨token, o'⟩ := l
    obtain rfl : o' = o := Option.some.inj hoffset
    generalize hwords : List.map Lexeme.token (⟨token, o'⟩ :: w) = words at hspells
    cases hspells with
    | term hterm =>
      subst hwords
      by_cases hlet : token = .keyword .letKw
      · subst hlet
        exact statement_of_spellsTerm hterm
      · rw [List.cons_append, statement_other hlet, ← List.cons_append,
          readTerm_iff_derives.mpr ⟨⟨token, o'⟩ :: w, rfl, hterm⟩]
        rfl
    | binding x hvalue hin =>
      rw [List.map_cons, List.cons.injEq] at hwords
      obtain ⟨rfl, hwords⟩ := hwords
      obtain ⟨o₁, w, rfl, hequals⟩ := map_token_eq_cons hwords
      obtain ⟨o₂, w, rfl, rfl⟩ := map_token_eq_cons hequals
      refine statement_of_value (binding_of_part x ?_) hin
      exact readTerm_iff_derives.mpr ⟨w, rfl, hvalue⟩

end Reading

/-- A source parses as a statement exactly if all its tokens spell the statement. -/
theorem parseStatement_iff_derives {source : List Glyph} {st : Statement} :
    parseStatement source = .ok st ↔
      ∃ ts, scan source = .ok ts ∧ DerivesStatement .eof ts st := by
  constructor
  · intro h
    obtain ⟨ts, hscan, h⟩ := bind_ok h
    obtain ⟨⟨st', rest⟩, hst, h⟩ := bind_ok h
    obtain ⟨u, hfinish, h⟩ := bind_ok h
    cases h
    obtain rfl := finish_eq_ok_iff.mp hfinish
    obtain ⟨w, rfl, hw⟩ := derives_of_statement hst
    exact ⟨w ++ [], hscan, by rwa [List.append_nil]⟩
  · rintro ⟨ts, hscan, h⟩
    have hst : statement (Glyph.widths source) (ts ++ []) = .ok (st, []) := statement_of_derives h
    rw [List.append_nil] at hst
    simp only [parseStatement, hscan, hst, ok_bind, finish_eq_ok_iff.mpr]
    rfl

/-! ### Programs -/

/-- The lexemes spell the statements, one after the other. -/
inductive SpellsProgram : List Lexeme → List Statement → Prop where
  | empty : SpellsProgram [] []
  | blank {ts : List Lexeme} {sts : List Statement} (o : Nat) (h : SpellsProgram ts sts) :
      SpellsProgram (⟨.semi, o⟩ :: ts) sts
  | last {w : List Lexeme} {st : Statement} (h : DerivesStatement .eof w st) : SpellsProgram w [st]
  | more {w ts : List Lexeme} {st : Statement} {sts : List Statement} (o : Nat)
      (first : DerivesStatement .semi w st) (others : SpellsProgram ts sts) :
      SpellsProgram (w ++ ⟨.semi, o⟩ :: ts) (st :: sts)

theorem DerivesStatement.before {next next' : Token} {w : List Lexeme} {st : Statement}
    (h : DerivesStatement next w st) (hnext : next' ∈ closers) (hin : next' ≠ .keyword .inKw) :
    DerivesStatement next' w st :=
  ⟨h.spells.before hnext hin, h.offset⟩

theorem DerivesStatement.no_semi {next : Token} {w : List Lexeme} {st : Statement}
    (h : DerivesStatement next w st) (o : Nat) : ⟨.semi, o⟩ ∉ w :=
  fun hmem => h.spells.no_semi (List.mem_map_of_mem hmem)

/-- A statement begins with a token that is no separator. -/
theorem DerivesStatement.starts {next : Token} {w : List Lexeme} {st : Statement}
    (h : DerivesStatement next w st) : ∃ l w', w = l :: w' ∧ l.token ≠ .semi := by
  cases w with
  | nil => exact absurd h.offset (by simp)
  | cons l w =>
    refine ⟨l, w, rfl, fun hl => h.no_semi l.offset ?_⟩
    rw [← hl]
    exact List.mem_cons_self

section Programs

variable {stop turns : Nat} {ts : List Lexeme} {sts : List Statement}

/-- A turn that does not begin with a separator begins with a statement. -/
theorem program_succ {l : Lexeme} (h : l.token ≠ .semi) :
    program stop (turns + 1) (l :: ts) = (do
      let (st, rest) ← statement stop (l :: ts)
      match rest with
      | [] => return [st]
      | rest =>
        let rest ← expect stop .semi .semi rest
        let more ← program stop turns rest
        return st :: more) := by
  rw [program.eq_def]
  split
  · rename_i hcons
    cases hcons
  · rename_i hturns _
    cases hturns
  · rename_i hcons
    cases hcons
    exact absurd rfl h
  · rename_i hsucc _ _
    cases hsucc
    rfl

theorem spells_of_program (h : program stop turns ts = .ok sts) : SpellsProgram ts sts := by
  induction turns generalizing ts sts with
  | zero =>
    cases ts with
    | nil =>
      cases h
      exact .empty
    | cons l ts => cases h
  | succ turns ih =>
    cases ts with
    | nil =>
      cases h
      exact .empty
    | cons l ts =>
      by_cases hl : l.token = .semi
      · obtain ⟨token, o⟩ := l
        obtain rfl : token = .semi := hl
        exact .blank o (ih h)
      · rw [program_succ hl] at h
        obtain ⟨⟨st, rest⟩, hst, h⟩ := bind_ok h
        obtain ⟨w, hw, hderives⟩ := derives_of_statement hst
        rw [hw]
        simp only at h
        split at h
        · cases h
          rw [List.append_nil]
          exact .last hderives
        · obtain ⟨rest', hexpect, h⟩ := bind_ok h
          obtain ⟨more, hmore, h⟩ := bind_ok h
          cases h
          obtain ⟨o, rfl⟩ := expect_ok hexpect
          exact .more o hderives (ih hmore)

/-- The number of tokens bounds the turns. -/
theorem program_of_spells (h : SpellsProgram ts sts) (hturns : ts.length ≤ turns) :
    program stop turns ts = .ok sts := by
  induction h generalizing turns with
  | empty => cases turns <;> rfl
  | blank o h ih =>
    cases turns with
    | zero => cases hturns
    | succ turns => exact ih (Nat.le_of_succ_le_succ hturns)
  | @last w st h =>
    obtain ⟨l, w, rfl, hl⟩ := h.starts
    cases turns with
    | zero => cases hturns
    | succ turns =>
      have hst : statement stop (l :: w ++ []) = .ok (st, []) := statement_of_derives h
      rw [List.append_nil] at hst
      rw [program_succ hl, hst]
      rfl
  | @more w ts st sts o first others ih =>
    obtain ⟨l, w, rfl, hl⟩ := first.starts
    cases turns with
    | zero => cases hturns
    | succ turns =>
      simp only [List.length_append, List.length_cons] at hturns
      have hst : statement stop (l :: w ++ ⟨.semi, o⟩ :: ts) = .ok (st, ⟨.semi, o⟩ :: ts) :=
        statement_of_derives first
      have hmore : program stop turns ts = .ok sts := ih (by omega)
      rw [List.cons_append] at hst ⊢
      rw [program_succ hl, hst, ok_bind]
      simp only [expect_cons, hmore, ok_bind]
      rfl

/-- The parser accepts the programs of the grammar and nothing else. -/
theorem program_iff_spells (hturns : ts.length ≤ turns) :
    program stop turns ts = .ok sts ↔ SpellsProgram ts sts :=
  ⟨spells_of_program, fun h => program_of_spells h hturns⟩

end Programs

theorem parseProgram_iff_spells {source : List Glyph} {sts : List Statement} :
    parseProgram source = .ok sts ↔ ∃ ts, scan source = .ok ts ∧ SpellsProgram ts sts := by
  constructor
  · intro h
    obtain ⟨ts, hscan, h⟩ := bind_ok h
    exact ⟨ts, hscan, (program_iff_spells (Nat.le_refl _)).mp h⟩
  · rintro ⟨ts, hscan, h⟩
    rw [parseProgram, hscan]
    exact (program_iff_spells (Nat.le_refl _)).mpr h

theorem SpellsProgram.unique {ts : List Lexeme} {sts sts' : List Statement}
    (h : SpellsProgram ts sts) (h' : SpellsProgram ts sts') : sts = sts' := by
  have hrun {sts : List Statement} (h : SpellsProgram ts sts) :
      program 0 ts.length ts = .ok sts := (program_iff_spells (Nat.le_refl _)).mpr h
  exact Except.ok.inj ((hrun h).symm.trans (hrun h'))

/-! ### Two programs -/

section Append

variable {ts₁ ts₂ : List Lexeme} {sts sts₁ sts₂ : List Statement} {o : Nat}

theorem SpellsProgram.append (h₁ : SpellsProgram ts₁ sts₁) (h₂ : SpellsProgram ts₂ sts₂) (o : Nat) :
    SpellsProgram (ts₁ ++ ⟨.semi, o⟩ :: ts₂) (sts₁ ++ sts₂) := by
  induction h₁ with
  | empty => exact .blank o h₂
  | blank o' h ih => exact .blank o' ih
  | last h => exact .more o (h.before (by decide) (by decide)) h₂
  | more o' first others ih =>
    rw [List.append_assoc]
    exact .more o' first ih

/-- A program that contains a separator breaks there: no statement extends over it. -/
theorem SpellsProgram.split (h : SpellsProgram (ts₁ ++ ⟨.semi, o⟩ :: ts₂) sts) :
    ∃ sts₁ sts₂, SpellsProgram ts₁ sts₁ ∧ SpellsProgram ts₂ sts₂ ∧ sts = sts₁ ++ sts₂ := by
  generalize hts : ts₁ ++ ⟨.semi, o⟩ :: ts₂ = ts at h
  induction h generalizing ts₁ with
  | empty => exact absurd hts (by simp)
  | @blank ts sts o' h ih =>
    cases ts₁ with
    | nil =>
      cases hts
      exact ⟨[], sts, .empty, h, rfl⟩
    | cons l ts₁ =>
      cases hts
      obtain ⟨sts₁, sts₂, h₁, h₂, rfl⟩ := ih rfl
      exact ⟨sts₁, sts₂, .blank o' h₁, h₂, rfl⟩
  -- the separator would be a token of the statement
  | last h =>
    refine absurd ?_ (h.no_semi o)
    rw [← hts]
    simp
  | @more w ts st sts o' first others ih =>
    rcases List.append_eq_append_iff.mp hts with ⟨u, rfl, hu⟩ | ⟨u, rfl, hu⟩
    · cases u with
      | nil =>
        cases hu
        rw [List.append_nil] at first
        exact ⟨[st], sts, .last (first.before (by decide) (by decide)), others, rfl⟩
      | cons l u =>
        cases hu
        refine absurd ?_ (first.no_semi o)
        simp
    · -- the separator behind the first statement is the one given, or comes before it
      cases u with
      | nil =>
        cases hu
        rw [List.append_nil]
        exact ⟨[st], sts, .last (first.before (by decide) (by decide)), others, rfl⟩
      | cons l u =>
        cases hu
        obtain ⟨sts₁, sts₂, h₁, h₂, rfl⟩ := ih rfl
        exact ⟨st :: sts₁, sts₂, .more o' first h₁, h₂, rfl⟩

theorem spellsProgram_append_iff :
    SpellsProgram (ts₁ ++ ⟨.semi, o⟩ :: ts₂) sts ↔
      ∃ sts₁ sts₂, SpellsProgram ts₁ sts₁ ∧ SpellsProgram ts₂ sts₂ ∧ sts = sts₁ ++ sts₂ := by
  constructor
  · exact fun h => h.split
  · rintro ⟨sts₁, sts₂, h₁, h₂, rfl⟩
    exact h₁.append h₂ o

end Append

/-! ### Moved programs -/

theorem map_token_move (f : Nat → Nat) (ts : List Lexeme) :
    (ts.map (Lexeme.move f)).map Lexeme.token = ts.map Lexeme.token := by
  rw [List.map_map]
  rfl

theorem DerivesStatement.move {next : Token} {w : List Lexeme} {st : Statement}
    (h : DerivesStatement next w st) (f : Nat → Nat) :
    DerivesStatement next (w.map (Lexeme.move f)) (st.move f) where
  spells := by
    rw [map_token_move]
    exact h.spells
  offset := by
    obtain ⟨l, w, rfl, -⟩ := h.starts
    exact congrArg (Option.map f) h.offset

theorem SpellsProgram.move {ts : List Lexeme} {sts : List Statement} (h : SpellsProgram ts sts)
    (f : Nat → Nat) : SpellsProgram (ts.map (Lexeme.move f)) (sts.map (Statement.move f)) := by
  induction h with
  | empty => exact .empty
  | blank o h ih => exact .blank (f o) ih
  | last h => exact .last (h.move f)
  | more o first others ih =>
    rw [List.map_append]
    exact .more (f o) (first.move f) ih

/-- Moving the tokens by a distance moves the statements by it. -/
theorem spellsProgram_move_iff {ts : List Lexeme} {sts : List Statement} {k : Nat} :
    SpellsProgram (ts.map (Lexeme.move (· + k))) sts ↔
      ∃ sts', SpellsProgram ts sts' ∧ sts = sts'.map (Statement.move (· + k)) := by
  constructor
  · intro h
    have hback := h.move (· - k)
    have hsame : (ts.map (Lexeme.move (· + k))).map (Lexeme.move (· - k)) = ts := by
      rw [List.map_map]
      refine (List.map_congr_left fun l _ => ?_).trans (List.map_id ts)
      simp [Lexeme.move]
    rw [hsame] at hback
    exact ⟨_, hback, h.unique (hback.move (· + k))⟩
  · rintro ⟨sts', h, rfl⟩
    exact h.move (· + k)

end Grammar

end MiniML
