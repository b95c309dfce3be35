/-
  MiniML/Proofs/Source/Layout.lean
  ================================
  **Parsing and layout** — a source means the same whatever white space and comments stand
  in a gap of it, with one exception: between an opening and a closing parenthesis only the
  four blanks of `()` may stand (`gap_replaced`).  With any other layout in between, the two
  parentheses enclose nothing, and no source that contains them parses (`Filled`).
-/
import MiniML.Proofs.Source.Gaps
import MiniML.Proofs.Source.Program

namespace MiniML

open Utf8 Scan Parse

/-! ### Parentheses that enclose nothing -/

/-- What may stand behind a token: anything, but no closing parenthesis behind an opening
    one. -/
def Allows (a b : Token) : Prop := a = .lparen → b ≠ .rparen

/-- No parenthesis is closed right after it was opened, nor by a closing one behind all. -/
def Filled (w : List Token) : Prop := (w ++ [Token.rparen]).IsChain Allows

theorem filled_nil : Filled [] := List.isChain_singleton _

theorem Filled.cons {token : Token} {w : List Token} (htoken : token ≠ .lparen) (h : Filled w) :
    Filled (token :: w) := by
  refine List.isChain_cons.mpr ⟨?_, h⟩
  intro b _ heq
  exact absurd heq htoken

theorem Filled.append {w w' : List Token} (h : Filled w) (h' : Filled w') : Filled (w ++ w') := by
  obtain ⟨hw, -, hlast⟩ := List.isChain_append.mp h
  rw [Filled, List.append_assoc]
  refine List.isChain_append.mpr ⟨hw, h', ?_⟩
  intro a ha b _ heq
  exact absurd rfl (hlast a ha .rparen rfl heq)

theorem Filled.enclosed {token : Token} {w : List Token} (htoken : token ≠ .rparen)
    (h : Filled (token :: w)) : Filled (.lparen :: (token :: w ++ [.rparen])) := by
  have hclosed : Filled (token :: w ++ [.rparen]) := h.append (filled_nil.cons (by decide))
  refine List.isChain_cons.mpr ⟨?_, hclosed⟩
  intro b hb _
  obtain rfl := Option.some.inj hb
  exact htoken

theorem not_filled (w w' : List Token) : ¬ Filled (w ++ .lparen :: .rparen :: w') := by
  intro h
  rw [Filled, List.append_assoc] at h
  obtain ⟨-, hempty, -⟩ := List.isChain_append.mp h
  exact (List.isChain_cons_cons.mp hempty).1 rfl rfl

namespace Grammar

theorem SpellsTerm.starts {next : Token} {w : List Token} {t : Term} (h : SpellsTerm next w t) :
    ∃ token ws, w = token :: ws ∧ token ∉ closers := by
  cases h with
  | application func args maximal =>
    obtain ⟨token, ws, rfl, htoken⟩ := func.starts
    exact ⟨token, _, rfl, htoken⟩

mutual

/-- In a term every pair of parentheses encloses something. -/
theorem SpellsTerm.filled {next : Token} {w : List Token} {t : Term} (h : SpellsTerm next w t) :
    Filled w := by
  match h with
  | .application func args _ => exact func.filled.append args.filled

theorem SpellsAtoms.filled {next : Token} {w : List Token} {as : List Term}
    (h : SpellsAtoms next w as) : Filled w := by
  match h with
  | .nil => exact filled_nil
  | .cons first others => exact first.filled.append others.filled

theorem SpellsAtom.filled {next : Token} {w : List Token} {t : Term} (h : SpellsAtom next w t) :
    Filled w := by
  match h with
  | .ident x => exact filled_nil.cons (by simp)
  | .int fits => exact filled_nil.cons (by simp)
  | .unit => exact filled_nil.cons (by simp)
  | .nil => exact filled_nil.cons (by simp)
  | .enclosed inner =>
    have hinner := inner.filled
    obtain ⟨token, ws, rfl, htoken⟩ := inner.starts
    refine Filled.enclosed ?_ hinner
    rintro rfl
    exact htoken (by simp [closers])
  | .lambda sign x body =>
    exact ((body.filled.cons (by simp)).cons (by simp)).cons (by simp)
  | .letIn x value body =>
    have hbody : Filled (.keyword .inKw :: _) := body.filled.cons (by simp)
    have hparts := value.filled.append hbody
    exact ((hparts.cons (by simp)).cons (by simp)).cons (by simp)
  | @SpellsAtom.branch _ k build w₁ w₂ w₃ c t e sign cond first second =>
    have hsecond : Filled (.keyword .elseKw :: w₃) := second.filled.cons (by simp)
    have hbranches : Filled (.keyword .thenKw :: (w₂ ++ .keyword .elseKw :: w₃)) :=
      (first.filled.append hsecond).cons (by simp)
    exact (cond.filled.append hbranches).cons (by simp)
  | @SpellsAtom.unary _ op build w a sign operand =>
    refine operand.filled.cons ?_
    cases sign <;> simp
  | @SpellsAtom.binary _ op build w₁ w₂ a b sign left right =>
    refine (left.filled.append right.filled).cons ?_
    cases sign <;> simp

end

theorem SpellsStatement.filled {next : Token} {w : List Token} {b : Option String} {t : Term}
    (h : SpellsStatement next w b t) : Filled w := by
  cases h with
  | term h => exact h.filled
  | binding x h => exact ((h.filled.cons (by simp)).cons (by simp)).cons (by simp)

theorem SpellsProgram.filled {ts : List Lexeme} {sts : List Statement} (h : SpellsProgram ts sts) :
    Filled (ts.map Lexeme.token) := by
  induction h with
  | empty => exact filled_nil
  | blank o h ih => exact ih.cons (by simp)
  | last h => exact h.spells.filled
  | more o first others ih =>
    rw [List.map_append, List.map_cons]
    exact first.spells.filled.append (ih.cons (by simp))

end Grammar

/-! ### What the tokens decide -/

/-- A statement without its offset. -/
def Statement.content (st : Statement) : Option String × Term := (st.binder, st.term)

namespace Grammar

theorem DerivesStatement.congr {next : Token} {w w' : List Lexeme} {st : Statement}
    (h : DerivesStatement next w st) (hw : w'.map Lexeme.token = w.map Lexeme.token) :
    ∃ st', DerivesStatement next w' st' ∧ st'.content = st.content := by
  obtain ⟨l, ws, rfl, -⟩ := h.starts
  cases w' with
  | nil => cases hw
  | cons l' ws' => exact ⟨⟨st.binder, st.term, l'.offset⟩, ⟨hw ▸ h.spells, rfl⟩, rfl⟩

theorem SpellsProgram.congr {ts ts' : List Lexeme} {sts : List Statement}
    (h : SpellsProgram ts sts) (hts : ts'.map Lexeme.token = ts.map Lexeme.token) :
    ∃ sts', SpellsProgram ts' sts' ∧
      sts'.map Statement.content = sts.map Statement.content := by
  induction h generalizing ts' with
  | empty =>
    obtain rfl := List.map_eq_nil_iff.mp hts
    exact ⟨[], .empty, rfl⟩
  | blank o h ih =>
    obtain ⟨o', ts', rfl, hrest⟩ := map_token_eq_cons hts
    obtain ⟨sts', hprogram, hcontent⟩ := ih hrest
    exact ⟨sts', .blank o' hprogram, hcontent⟩
  | last h =>
    obtain ⟨st', hst, hcontent⟩ := h.congr hts
    exact ⟨[st'], .last hst, congrArg ([·]) hcontent⟩
  | more o first others ih =>
    rw [List.map_append, List.map_cons] at hts
    obtain ⟨w', o', ts', rfl, hw, hrest⟩ := map_token_eq_append_cons hts
    obtain ⟨st', hst, hfirst⟩ := first.congr hw
    obtain ⟨sts', hprogram, hothers⟩ := ih hrest
    exact ⟨st' :: sts', .more o' hst hprogram, congrArg₂ List.cons hfirst hothers⟩

end Grammar

open Grammar

section Words

variable {gs gs' : List Glyph}

theorem parseTerm_iff_words {t : Term} :
    parseTerm gs = .ok t ↔ ∃ w, words gs = some w ∧ SpellsTerm .eof w t := by
  rw [parseTerm_iff_spells]
  constructor
  · rintro ⟨ts, hscan, h⟩
    exact ⟨_, words_eq_some_iff.mpr ⟨ts, hscan, rfl⟩, h⟩
  · rintro ⟨w, hw, h⟩
    obtain ⟨ts, hscan, rfl⟩ := words_eq_some_iff.mp hw
    exact ⟨ts, hscan, h⟩

theorem parseStatement_congr (hwords : words gs' = words gs) {st : Statement}
    (h : parseStatement gs = .ok st) :
    ∃ st', parseStatement gs' = .ok st' ∧ st'.content = st.content := by
  obtain ⟨ts, hscan, hst⟩ := parseStatement_iff_derives.mp h
  have hw := words_eq_some_iff.mpr ⟨ts, hscan, rfl⟩
  obtain ⟨ts', hscan', hts⟩ := words_eq_some_iff.mp (hwords.trans hw)
  obtain ⟨st', hst', hcontent⟩ := hst.congr hts
  exact ⟨st', parseStatement_iff_derives.mpr ⟨ts', hscan', hst'⟩, hcontent⟩

theorem parseProgram_congr (hwords : words gs' = words gs) {sts : List Statement}
    (h : parseProgram gs = .ok sts) :
    ∃ sts', parseProgram gs' = .ok sts' ∧
      sts'.map Statement.content = sts.map Statement.content := by
  obtain ⟨ts, hscan, hsts⟩ := parseProgram_iff_spells.mp h
  have hw := words_eq_some_iff.mpr ⟨ts, hscan, rfl⟩
  obtain ⟨ts', hscan', hts⟩ := words_eq_some_iff.mp (hwords.trans hw)
  obtain ⟨sts', hsts', hcontent⟩ := hsts.congr hts
  exact ⟨sts', parseProgram_iff_spells.mpr ⟨ts', hscan', hsts'⟩, hcontent⟩

/-- In a source that parses in any of the three ways, every pair of parentheses encloses
    something. -/
theorem filled_of_parse
    (h : (∃ t, parseTerm gs = .ok t) ∨ (∃ st, parseStatement gs = .ok st) ∨
      ∃ sts, parseProgram gs = .ok sts) : ∃ w, words gs = some w ∧ Filled w := by
  rcases h with ⟨t, h⟩ | ⟨st, h⟩ | ⟨sts, h⟩
  · obtain ⟨w, hw, hterm⟩ := parseTerm_iff_words.mp h
    exact ⟨w, hw, hterm.filled⟩
  · obtain ⟨ts, hscan, hst⟩ := parseStatement_iff_derives.mp h
    exact ⟨_, words_eq_some_iff.mpr ⟨ts, hscan, rfl⟩, hst.spells.filled⟩
  · obtain ⟨ts, hscan, hsts⟩ := parseProgram_iff_spells.mp h
    exact ⟨_, words_eq_some_iff.mpr ⟨ts, hscan, rfl⟩, hsts.filled⟩

end Words

/-! ### Gaps of a source -/

/-- A place between two parts of a source where layout can stand and nothing next to it is
    layout: it is not inside a comment, no white space stands in front of it, and neither
    white space nor a comment stands behind it. -/
structure Place (before after : List UInt8) : Prop where
  outside : ∀ u v, before = u ++ 0x23 :: v → 0x0A ∈ v
  first : ∀ g ∈ (decode before).getLast?, Text.isSpace g.toChar = false
  final : ∀ g ∈ (decode after).head?, Text.isSpace g.toChar = false ∧ g ≠ .char '#'

/-- A maximal run of white space and comments of a source, between the parts `before` and
    `after` of it. -/
structure IsGap (before gap after : List UInt8) : Prop where
  place : Place before after
  nonempty : gap ≠ []
  runs : Runs gap after

/-- The place is between an opening and a closing parenthesis. -/
def Enclosed (before after : List UInt8) : Prop :=
  (decode before).getLast? = some (.char '(') ∧ (decode after).head? = some (.char ')')

/-- The gap may stand in this place: between parentheses it consists of the blanks of `()`. -/
def Fits (before gap after : List UInt8) : Prop := Enclosed before after → Blank gap

section Places

variable {before gap gap' after : List UInt8}

theorem Place.break_mem (h : Place before after) {u v : List Glyph}
    (hbefore : decode before = u ++ .char '#' :: v) : .char '\n' ∈ v := by
  have hbytes : before = encode u ++ 0x23 :: encode v := by
    rw [← encode_decode before, hbefore, encode_append, encode_cons]
    rfl
  have hwide : Glyph.Wide v := by
    intro b hb
    refine wide_decode before b ?_
    rw [hbefore]
    exact List.mem_append_right _ (.tail _ hb)
  by_contra hmem
  exact newline_not_mem_encode hwide hmem (h.outside _ _ hbytes)

/-- Outside parentheses, the tokens are those of the two parts. -/
theorem Place.words_around (h : Place before after) (hopen : ¬ Enclosed before after)
    (hruns : Runs gap after) (hne : gap ≠ []) :
    words (decode (before ++ (gap ++ after))) =
      (words (decode before)).bind fun w => (words (decode after)).map (w ++ ·) := by
  refine MiniML.words_around hruns hne (fun u v => h.break_mem) ?_
  by_cases hlast : (decode before).getLast? = some (.char '(')
  · refine .inl fun hclose => hopen ⟨hlast, ?_⟩
    exact head?_of_closes hruns (fun g hg => (h.final g hg).1) hclose
  · refine .inr fun u v hbefore => ?_
    rcases List.eq_nil_or_concat' v with rfl | ⟨v, g, rfl⟩
    · rw [hbefore, List.getLast?_concat] at hlast
      exact absurd rfl hlast
    · have hg : g ∈ (decode before).getLast? := by
        rw [hbefore, ← List.cons_append, ← List.append_assoc, List.getLast?_concat]
        rfl
      refine ⟨g, List.mem_append_right _ (.head _), ?_⟩
      rw [← Bool.not_eq_true]
      intro hblank
      exact absurd (isSpace_of_isUnitBlank hblank) (by simp [h.first g hg])

/-- Between parentheses, they are those of the two parts and what the gap makes of the
    parentheses: the unit value, or two tokens with nothing between them. -/
theorem Place.words_enclosed (h : Place before after) (hopen : Enclosed before after) :
    ∃ us vs, ∀ gap, Runs gap after → gap ≠ [] →
      (Blank gap → words (decode (before ++ (gap ++ after))) =
        (words us).bind fun w => (words vs).map fun w' => w ++ .unit :: w') ∧
      (¬ Blank gap → words (decode (before ++ (gap ++ after))) =
        (words us).bind fun w => (words vs).map fun w' => w ++ .lparen :: .rparen :: w') := by
  obtain ⟨hlast, hhead⟩ := hopen
  obtain ⟨us, hbefore⟩ := List.getLast?_eq_some_iff.mp hlast
  obtain ⟨vs, hafter⟩ := List.head?_eq_some_iff.mp hhead
  have houtside : ∀ u v, us = u ++ .char '#' :: v → .char '\n' ∈ v := by
    rintro u v rfl
    rw [List.append_assoc, List.cons_append] at hbefore
    simpa using h.break_mem hbefore
  refine ⟨us, vs, fun gap hruns hne => ?_⟩
  have hlayout : Layout gap := by
    obtain ⟨whole, last, rfl, hwhole, -, rfl | rfl⟩ := hruns
    · rwa [List.append_nil]
    · cases hafter
  have hglyphs : decode (before ++ (gap ++ after)) =
      us ++ .char '(' :: (decode gap ++ .char ')' :: vs) := by
    rw [decode_before hruns hne, decode_runs hruns, hbefore, hafter, List.append_assoc,
      List.singleton_append]
  obtain ⟨hunit, hother⟩ := words_parentheses hlayout vs
  rw [hglyphs, words_opened houtside]
  refine ⟨fun hblank => ?_, fun hblank => ?_⟩
  · rw [hunit hblank]
    simp only [Option.map_map, Function.comp_def]
  · rw [hother hblank]
    simp only [Option.map_map, Function.comp_def]

/-- Gaps that both fit make no difference to the tokens. -/
theorem Place.words_eq (h : Place before after) (hgap : Runs gap after) (hne : gap ≠ [])
    (hgap' : Runs gap' after) (hne' : gap' ≠ []) (hfits : Fits before gap after)
    (hfits' : Fits before gap' after) :
    words (decode (before ++ (gap' ++ after))) = words (decode (before ++ (gap ++ after))) := by
  by_cases hopen : Enclosed before after
  · obtain ⟨us, vs, hwords⟩ := h.words_enclosed hopen
    rw [(hwords gap hgap hne).1 (hfits hopen), (hwords gap' hgap' hne').1 (hfits' hopen)]
  · rw [h.words_around hopen hgap hne, h.words_around hopen hgap' hne']

/-- In a source that parses, every gap fits. -/
theorem Place.fits (h : Place before after) (hgap : Runs gap after) (hne : gap ≠ [])
    (hparse : (∃ t, parseTerm (decode (before ++ (gap ++ after))) = .ok t) ∨
      (∃ st, parseStatement (decode (before ++ (gap ++ after))) = .ok st) ∨
      ∃ sts, parseProgram (decode (before ++ (gap ++ after))) = .ok sts) :
    Fits before gap after := by
  intro hopen
  by_contra hblank
  obtain ⟨us, vs, hwords⟩ := h.words_enclosed hopen
  obtain ⟨w, hw, hfilled⟩ := filled_of_parse hparse
  rw [(hwords gap hgap hne).2 hblank, Option.bind_eq_some_iff] at hw
  obtain ⟨w₁, -, hw⟩ := hw
  obtain ⟨w₂, -, rfl⟩ := Option.map_eq_some_iff.mp hw
  exact not_filled w₁ w₂ hfilled

end Places

/-- **Parsing ignores layout, but for parentheses that enclose nothing else.**  In a source
    that parses, a maximal run of white space and comments is replaced by another such run,
    whose comments all end in line breaks.  The new source parses, and as the same term, the
    same statement or the same statements up to offsets, exactly if the new run fits: if it
    stands between an opening and a closing parenthesis, it must consist of spaces, tabs,
    line feeds and carriage returns. -/
theorem gap_replaced {before gap after gap' : List UInt8} (h : IsGap before gap after)
    (hlayout : Layout gap') (hne : gap' ≠ []) :
    (∀ t, parseTerm (decode (before ++ gap ++ after)) = .ok t →
      (parseTerm (decode (before ++ gap' ++ after)) = .ok t ↔ Fits before gap' after)) ∧
    (∀ st, parseStatement (decode (before ++ gap ++ after)) = .ok st →
      ((∃ st', parseStatement (decode (before ++ gap' ++ after)) = .ok st' ∧
        st'.content = st.content) ↔ Fits before gap' after)) ∧
    (∀ sts, parseProgram (decode (before ++ gap ++ after)) = .ok sts →
      ((∃ sts', parseProgram (decode (before ++ gap' ++ after)) = .ok sts' ∧
        sts'.map Statement.content = sts.map Statement.content) ↔ Fits before gap' after)) := by
  obtain ⟨hplace, hgap, hruns⟩ := h
  have hruns' : Runs gap' after := hlayout.runs after
  simp only [List.append_assoc]
  have hwords : Fits before gap after → Fits before gap' after →
      words (decode (before ++ (gap' ++ after))) = words (decode (before ++ (gap ++ after))) :=
    hplace.words_eq hruns hgap hruns' hne
  refine ⟨fun t ht => ⟨fun ht' => ?_, fun hfits => ?_⟩,
    fun st hst => ⟨?_, fun hfits => ?_⟩, fun sts hsts => ⟨?_, fun hfits => ?_⟩⟩
  · exact hplace.fits hruns' hne (.inl ⟨t, ht'⟩)
  · have heq := hwords (hplace.fits hruns hgap (.inl ⟨t, ht⟩)) hfits
    rw [parseTerm_iff_words] at ht ⊢
    rwa [heq]
  · rintro ⟨st', hst', -⟩
    exact hplace.fits hruns' hne (.inr (.inl ⟨st', hst'⟩))
  · exact parseStatement_congr (hwords (hplace.fits hruns hgap (.inr (.inl ⟨st, hst⟩))) hfits) hst
  · rintro ⟨sts', hsts', -⟩
    exact hplace.fits hruns' hne (.inr (.inr ⟨sts', hsts'⟩))
  · exact parseProgram_congr (hwords (hplace.fits hruns hgap (.inr (.inr ⟨sts, hsts⟩))) hfits) hsts

/-- `f x` with a no-break space and a comment, in which a byte is no text, in the place of
    the space. -/
theorem gap_replaced_noBreakSpace :
    IsGap [0x66] [0x20] [0x78] ∧ Layout [0xC2, 0xA0, 0x23, 0xFF, 0x0A] ∧
      parseTerm (decode [0x66, 0x20, 0x78]) = .ok (.app (.var "f") (.var "x")) ∧
      parseTerm (decode [0x66, 0xC2, 0xA0, 0x23, 0xFF, 0x0A, 0x78]) =
        .ok (.app (.var "f") (.var "x")) := by
  have hgap : IsGap [0x66] [0x20] [0x78] := by
    refine ⟨⟨?_, by decide, by decide⟩, by decide, Layout.runs ?_ _⟩
    · intro u v h
      have hmem : (0x23 : UInt8) ∈ [(0x66 : UInt8)] := h ▸ List.mem_append_right u (.head v)
      exact absurd hmem (by decide)
    · exact .space (c := ' ') rfl .nil
  have hlayout : Layout [0xC2, 0xA0, 0x23, 0xFF, 0x0A] :=
    .space (c := '\u00A0') rfl (@Layout.comment [0xFF] [] (by decide) .nil)
  have hparse : parseTerm (decode [0x66, 0x20, 0x78]) = .ok (.app (.var "f") (.var "x")) := by cbv
  have hfits : Fits [0x66] [0xC2, 0xA0, 0x23, 0xFF, 0x0A] [0x78] :=
    fun hopen => absurd hopen.1 (by decide)
  exact ⟨hgap, hlayout, hparse, ((gap_replaced hgap hlayout (by decide)).1 _ hparse).mpr hfits⟩

/-- The space in `( )` is replaced by an empty comment and its line break, and the source
    parses no longer. -/
theorem gap_not_replaced_by_comment :
    IsGap [0x28] [0x20] [0x29] ∧ Layout [0x23, 0x0A] ∧
      parseTerm (decode [0x28, 0x20, 0x29]) = .ok .unit ∧
      parseTerm (decode [0x28, 0x23, 0x0A, 0x29]) =
        .error ⟨3, .unexpected .term .rparen⟩ := by
  refine ⟨⟨⟨?_, by decide, by decide⟩, by decide, Layout.runs ?_ _⟩, ?_, by cbv, by cbv⟩
  · intro u v h
    have hmem : (0x23 : UInt8) ∈ [(0x28 : UInt8)] := h ▸ List.mem_append_right u (.head v)
    exact absurd hmem (by decide)
  · exact .space (c := ' ') rfl .nil
  · exact @Layout.comment [] [] (by decide) .nil

end MiniML
