/-
  MiniML/Proofs/Source/Surface.lean
  =================================
  **What the parser returns** — surface terms only: no region, no negative integer, and
  names that can be written (`surface_of_parseTerm`).  As every surface term can be
  written, these are exactly the terms that are read from some source
  (`exists_parseTerm_iff_surface`).

  No name that can be written begins with `_` and goes on, so the names that supplies
  issue for binders stay apart from those of a source (`parsed_is_hygienic`).
-/
import MiniML.Proofs.Source.Items
import MiniML.Proofs.Source.Program
import MiniML.Proofs.Source.Rendering

namespace MiniML

/-! ### From tokens to terms -/

theorem Token.Written.lexical {token : Token} {cs : List Char} (h : token.Written cs) :
    token.Lexical := by
  cases h with
  | unit => trivial
  | text h => exact h

/-- Tokens that are all lexically well formed. -/
def Lexical (ws : List Token) : Prop := ∀ token ∈ ws, token.Lexical

theorem lexical_append {ws ws' : List Token} : Lexical (ws ++ ws') ↔ Lexical ws ∧ Lexical ws' :=
  List.forall_mem_append

theorem lexical_cons {token : Token} {ws : List Token} :
    Lexical (token :: ws) ↔ token.Lexical ∧ Lexical ws :=
  List.forall_mem_cons

/-- Scanning gives tokens that are lexically well formed. -/
theorem Scan.Scanned.lexical {o : Nat} {gs : List Glyph} {ts : List Lexeme}
    (h : Scanned o gs (.ok ts)) : Lexical (ts.map Lexeme.token) := by
  generalize hr : Except.ok ts = r at h
  induction h generalizing ts with
  | nil | lastComment =>
    cases hr
    exact fun token htoken => absurd htoken List.not_mem_nil
  | space _ _ ih | comment _ _ ih => exact ih hr
  | @token _ _ _ _ _ r h _ ih =>
    cases r with
    | error e => cases hr
    | ok ts =>
      cases hr
      exact lexical_cons.mpr ⟨h.lexical, ih rfl⟩
  | fault => cases hr

theorem lexical_of_scan {source : List Glyph} {ts : List Lexeme} (h : scan source = .ok ts) :
    Lexical (ts.map Lexeme.token) := by
  have hscanned := Scan.scanned 0 source
  rw [show Scan.scanFrom 0 0 source = .ok ts from h] at hscanned
  exact hscanned.lexical

namespace Term

theorem Surface.appMany {f : Term} {as : List Term} (hf : f.Surface) (has : ∀ a ∈ as, a.Surface) :
    (f.appMany as).Surface := by
  induction as generalizing f with
  | nil => exact hf
  | cons a as ih =>
    rw [List.forall_mem_cons] at has
    exact ih ⟨hf, has.1⟩ has.2

theorem surface_int {n : Nat} (h : n < 2 ^ 63) : (Term.int (Int64.ofNat n)).Surface := by
  change 0 ≤ (Int64.ofNat n).toInt
  rw [Int64.toInt_ofNat_of_lt h]
  exact Int.natCast_nonneg n

end Term

namespace Grammar

mutual

/-- What tokens spell is a surface term if they are lexically well formed. -/
theorem SpellsTerm.surface {next : Token} {w : List Token} {t : Term} (h : SpellsTerm next w t)
    (hw : Lexical w) : t.Surface := by
  match h with
  | .application func args _ =>
    rw [lexical_append] at hw
    exact (func.surface hw.1).appMany (args.surface hw.2)

theorem SpellsAtoms.surface {next : Token} {w : List Token} {as : List Term}
    (h : SpellsAtoms next w as) (hw : Lexical w) : ∀ a ∈ as, a.Surface := by
  match h with
  | .nil => exact fun a ha => absurd ha List.not_mem_nil
  | .cons first others =>
    rw [lexical_append] at hw
    exact List.forall_mem_cons.mpr ⟨first.surface hw.1, others.surface hw.2⟩

theorem SpellsAtom.surface {next : Token} {w : List Token} {t : Term} (h : SpellsAtom next w t)
    (hw : Lexical w) : t.Surface := by
  match h with
  | .ident x => exact hw _ (.head _)
  | .int fits => exact Term.surface_int fits
  | .unit => trivial
  | .nil => trivial
  | .enclosed inner =>
    simp only [lexical_cons, lexical_append] at hw
    exact inner.surface hw.2.1
  | .lambda sign x body =>
    simp only [lexical_cons] at hw
    exact ⟨hw.2.1, body.surface hw.2.2.2⟩
  | .letIn x value body =>
    simp only [lexical_cons, lexical_append] at hw
    obtain ⟨-, hx, -, hvalue, -, hbody⟩ := hw
    exact ⟨hx, value.surface hvalue, body.surface hbody⟩
  | @SpellsAtom.branch _ k build w₁ w₂ w₃ c t e sign cond first second =>
    simp only [lexical_cons, lexical_append] at hw
    obtain ⟨-, hcond, -, hfirst, -, hsecond⟩ := hw
    have hparts := And.intro (cond.surface hcond)
      (And.intro (first.surface hfirst) (second.surface hsecond))
    cases sign <;> exact hparts
  | @SpellsAtom.unary _ op build w a sign operand =>
    have ha := operand.surface (lexical_cons.mp hw).2
    cases sign <;> exact ha
  | @SpellsAtom.binary _ op build w₁ w₂ a b sign left right =>
    simp only [lexical_cons, lexical_append] at hw
    have hparts := And.intro (left.surface hw.2.1) (right.surface hw.2.2)
    cases sign <;> exact hparts

end

theorem SpellsStatement.surface {next : Token} {w : List Token} {b : Option String} {t : Term}
    (h : SpellsStatement next w b t) (hw : Lexical w) :
    t.Surface ∧ ∀ x ∈ b, Scan.IsName x := by
  cases h with
  | term h => exact ⟨h.surface hw, fun x hx => nomatch hx⟩
  | binding x h =>
    simp only [lexical_cons] at hw
    refine ⟨h.surface hw.2.2.2, fun y hy => ?_⟩
    obtain rfl := Option.some.inj hy
    exact hw.2.1

theorem SpellsProgram.surface {ts : List Lexeme} {sts : List Statement} (h : SpellsProgram ts sts)
    (hts : Lexical (ts.map Lexeme.token)) :
    ∀ st ∈ sts, st.term.Surface ∧ ∀ x ∈ st.binder, Scan.IsName x := by
  induction h with
  | empty => exact fun st hst => absurd hst List.not_mem_nil
  | blank o h ih => exact ih (lexical_cons.mp hts).2
  | last h =>
    intro st hst
    obtain rfl := List.mem_singleton.mp hst
    exact h.spells.surface hts
  | more o first others ih =>
    rw [List.map_append, lexical_append, List.map_cons, lexical_cons] at hts
    exact List.forall_mem_cons.mpr ⟨first.spells.surface hts.1, ih hts.2.2⟩

end Grammar

/-! ### What the parser returns -/

theorem surface_of_parseTerm {source : List Glyph} {t : Term} (h : parseTerm source = .ok t) :
    t.Surface := by
  obtain ⟨ts, hscan, hspells⟩ := Grammar.parseTerm_iff_spells.mp h
  exact hspells.surface (lexical_of_scan hscan)

/-- The terms that are read from some source are those that can be written. -/
theorem exists_parseTerm_iff_surface (t : Term) :
    (∃ source, parseTerm source = .ok t) ↔ t.Surface := by
  constructor
  · rintro ⟨source, h⟩
    exact surface_of_parseTerm h
  · exact fun h => ⟨_, parseTerm_of_surface h⟩

theorem surface_of_parseStatement {source : List Glyph} {st : Statement}
    (h : parseStatement source = .ok st) : st.term.Surface ∧ ∀ x ∈ st.binder, Scan.IsName x := by
  obtain ⟨ts, hscan, hderives⟩ := Grammar.parseStatement_iff_derives.mp h
  exact hderives.spells.surface (lexical_of_scan hscan)

theorem surface_of_parseProgram {source : List Glyph} {sts : List Statement}
    (h : parseProgram source = .ok sts) :
    ∀ st ∈ sts, st.term.Surface ∧ ∀ x ∈ st.binder, Scan.IsName x := by
  obtain ⟨ts, hscan, hspells⟩ := Grammar.parseProgram_iff_spells.mp h
  exact hspells.surface (lexical_of_scan hscan)

/-! ### Names and literals -/

namespace Term

/-- The name that a node itself mentions, that of a variable or of a binder. -/
def ownName? : Term → Option String
  | .var x | .abs x _ | .letIn x _ _ => some x
  | _ => none

/-- The names of the variables and binders of a term, in walking order. -/
def names (t : Term) : List String := t.subterms.filterMap ownName?

/-- The value of a node that is an integer. -/
def literal? : Term → Option Int64
  | .int n => some n
  | _ => none

/-- The integers of a term, in walking order. -/
def literals (t : Term) : List Int64 := t.subterms.filterMap literal?

/-- The parts of a surface term are surface terms. -/
theorem Surface.of_mem_subterms {t u : Term} (h : t.Surface) (hu : u ∈ t.subterms) :
    u.Surface := by
  induction t with
  | var | int | nil | unit | region =>
    obtain rfl := List.mem_singleton.mp hu
    exact h
  | abs x b ih =>
    rcases List.mem_cons.mp hu with rfl | hu
    · exact h
    · exact ih h.2 hu
  | letIn x v b ihv ihb =>
    simp only [subterms, List.mem_cons, List.mem_append] at hu
    rcases hu with rfl | hu | hu
    · exact h
    · exact ihv h.2.1 hu
    · exact ihb h.2.2 hu
  | head b ih | tail b ih | fix b ih | mkRef b ih | deref b ih =>
    rcases List.mem_cons.mp hu with rfl | hu
    · exact h
    · exact ih h hu
  | app a b iha ihb | cons a b iha ihb | add a b iha ihb | sub a b iha ihb
  | assign a b iha ihb =>
    simp only [subterms, List.mem_cons, List.mem_append] at hu
    rcases hu with rfl | hu | hu
    · exact h
    · exact iha h.1 hu
    · exact ihb h.2 hu
  | ifZero a b c iha ihb ihc | ifEmpty a b c iha ihb ihc =>
    simp only [subterms, List.mem_cons, List.mem_append] at hu
    rcases hu with rfl | (hu | hu) | hu
    · exact h
    · exact iha h.1 hu
    · exact ihb h.2.1 hu
    · exact ihc h.2.2 hu

end Term

/-- A name that no reserved word, no sign of an abstraction and no name from a supply of
    the interpreter can be taken for. -/
structure CleanName (x : String) : Prop where
  nonempty : x ≠ ""
  unreserved : Keyword.ofText? x = none
  no_lambda : 'λ' ∉ x.toList
  underscore : x = "_" ∨ x.toList.head? ≠ some '_'
  /-- Neither evaluation (`_v`) nor a session (`_s`) gives a binder this name, whatever the
      count of their supply. -/
  not_issued : ∀ s : NameSupply, s.stem = "_v" ∨ s.stem = "_s" → x ≠ s.fresh.1

theorem ne_fresh_of_underscore {x : String} (h : x = "_" ∨ x.toList.head? ≠ some '_')
    {s : NameSupply} (hs : s.stem = "_v" ∨ s.stem = "_s") : x ≠ s.fresh.1 := by
  obtain ⟨d, hd, hstem⟩ : ∃ d, d ≠ [] ∧ s.stem.toList = '_' :: d := by
    rcases hs with hs | hs
    · exact ⟨['v'], by simp, by rw [hs]; rfl⟩
    · exact ⟨['s'], by simp, by rw [hs]; rfl⟩
  have hfresh : s.fresh.1.toList = '_' :: (d ++ (decimal s.next).toList) := by
    change (s.stem ++ decimal s.next).toList = _
    rw [String.toList_append, hstem, List.cons_append]
  rintro rfl
  rcases h with heq | hhead
  · rw [heq] at hfresh
    cases d with
    | nil => exact hd rfl
    | cons => cases hfresh
  · rw [hfresh] at hhead
    exact hhead rfl

/-- Names that can be written are clean. -/
theorem Scan.IsName.clean {x : String} (h : IsName x) : CleanName x := by
  have hunderscore : x = "_" ∨ x.toList.head? ≠ some '_' := by
    refine h.imp id ?_
    rintro ⟨⟨c, cs, hx, hc, -, -⟩, -⟩
    rw [hx, List.head?_cons]
    rintro heq
    obtain rfl := Option.some.inj heq
    exact absurd hc (by decide)
  refine ⟨?_, ?_, ?_, hunderscore, fun s => ne_fresh_of_underscore hunderscore⟩
  · rintro rfl
    exact h.toList_ne_nil rfl
  · rcases h with rfl | ⟨-, hfree⟩
    · decide
    · exact hfree
  · rcases h with rfl | ⟨⟨c, cs, hx, -, hne, hcs⟩, -⟩
    · decide
    · rw [hx, List.mem_cons, not_or]
      refine ⟨Ne.symm hne, fun hmem => ?_⟩
      exact absurd (List.all_eq_true.mp hcs _ hmem) (by decide)

/-- Terms without regions, whose integers are not negative and whose names are clean. -/
structure Term.Hygienic (t : Term) : Prop where
  regions : t.regions = []
  literals : ∀ n ∈ t.literals, 0 ≤ n.toInt ∧ n.toInt ≤ 2 ^ 63 - 1
  names : ∀ x ∈ t.names, CleanName x

theorem Term.Surface.hygienic {t : Term} (h : t.Surface) : t.Hygienic where
  -- each part of a surface term is one, and no region is
  regions := by
    rw [Term.regions, List.filterMap_eq_nil_iff]
    intro u hu
    have hsurface := h.of_mem_subterms hu
    cases u <;> first | rfl | exact hsurface.elim
  literals := by
    intro n hn
    obtain ⟨u, hu, hn⟩ := List.mem_filterMap.mp hn
    have hsurface := h.of_mem_subterms hu
    cases u with
    | int m =>
      obtain rfl := Option.some.inj hn
      have hlt := Int64.toInt_lt m
      exact ⟨hsurface, by omega⟩
    | _ => cases hn
  names := by
    intro x hx
    obtain ⟨u, hu, hx⟩ := List.mem_filterMap.mp hx
    have hsurface := h.of_mem_subterms hu
    cases u with
    | var y =>
      obtain rfl := Option.some.inj hx
      exact Scan.IsName.clean hsurface
    | abs y b =>
      obtain rfl := Option.some.inj hx
      exact hsurface.1.clean
    | letIn y v b =>
      obtain rfl := Option.some.inj hx
      exact hsurface.1.clean
    | _ => cases hx

/-- A statement with a hygienic term, and a clean name if it binds one. -/
structure Statement.Hygienic (st : Statement) : Prop where
  term : st.term.Hygienic
  binder : ∀ x ∈ st.binder, CleanName x

/-- **Parsed terms are hygienic**, whatever the source: no region, no integer outside
    `[0, 2 ^ 63 - 1]`, and only names that are not empty, not reserved, without `λ`, and
    different from all that are issued for binders. -/
theorem parsed_is_hygienic (source : List Glyph) :
    (∀ t, parseTerm source = .ok t → t.Hygienic) ∧
    (∀ st, parseStatement source = .ok st → st.Hygienic) ∧
    (∀ sts, parseProgram source = .ok sts → ∀ st ∈ sts, st.Hygienic) := by
  refine ⟨?_, ?_, ?_⟩
  · intro t h
    exact (surface_of_parseTerm h).hygienic
  · intro st h
    obtain ⟨hterm, hbinder⟩ := surface_of_parseStatement h
    exact ⟨hterm.hygienic, fun x hx => (hbinder x hx).clean⟩
  · intro sts h st hst
    obtain ⟨hterm, hbinder⟩ := surface_of_parseProgram h st hst
    exact ⟨hterm.hygienic, fun x hx => (hbinder x hx).clean⟩

/-- The largest integer and the lone underscore, in a term and in a program. -/
theorem parsed_is_hygienic_underscore :
    ∃ t st st', parseTerm (Glyph.ofString "λ_.9223372036854775807") = .ok t ∧
      parseStatement (Glyph.ofString "let v' = λ_.9223372036854775807") = .ok st ∧
      parseProgram (Glyph.ofString "let v' = λ_.9223372036854775807") = .ok [st'] ∧
      t.literals = [9223372036854775807] ∧ t.names = ["_"] ∧ st.binder = some "v'" ∧
      t.Hygienic ∧ st.Hygienic ∧ st'.Hygienic := by
  have hterm : parseTerm (Glyph.ofString "λ_.9223372036854775807") =
      .ok (.abs "_" (.int 9223372036854775807)) := by cbv
  have hstatement : parseStatement (Glyph.ofString "let v' = λ_.9223372036854775807") =
      .ok ⟨some "v'", .abs "_" (.int 9223372036854775807), 0⟩ := by cbv
  have hprogram : parseProgram (Glyph.ofString "let v' = λ_.9223372036854775807") =
      .ok [⟨some "v'", .abs "_" (.int 9223372036854775807), 0⟩] := by cbv
  exact ⟨_, _, _, hterm, hstatement, hprogram, rfl, rfl, rfl,
    (parsed_is_hygienic _).1 _ hterm, (parsed_is_hygienic _).2.1 _ hstatement,
    (parsed_is_hygienic _).2.2 _ hprogram _ (.head _)⟩

end MiniML
