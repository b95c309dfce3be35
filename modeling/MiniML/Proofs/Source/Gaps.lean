/-
  MiniML/Proofs/Source/Gaps.lean
  ==============================
  **Layout and tokens** — white space and comments leave no tokens (`words_layout`) and
  keep apart what stands around them, whatever they are made of (`words_around`).

  The one exception is a gap between parentheses.  An opening parenthesis is the beginning
  of the unit value if a closing one follows after blanks, and only four characters are
  blanks here (`isUnitBlank`): with any other white space or a comment between them, the
  two parentheses are tokens of their own (`words_opened`).

  Offsets play no role in this, so tokens are taken without them (`words`).
-/
import MiniML.Proofs.Source.Tiling

namespace MiniML

open Utf8 Scan

/-! ### Tokens without offsets -/

/-- The tokens of a scan, if there are any. -/
def Scan.spelled (r : Except ParseError (List Lexeme)) : Option (List Token) :=
  r.toOption.map (List.map Lexeme.token)

/-- The tokens of a source that scans. -/
def words (gs : List Glyph) : Option (List Token) := spelled (scan gs)

theorem words_eq_some_iff {gs : List Glyph} {w : List Token} :
    words gs = some w ↔ ∃ ts, scan gs = .ok ts ∧ ts.map Lexeme.token = w := by
  rw [words, spelled]
  cases scan gs with
  | error e => simp [Except.toOption]
  | ok ts => simp [Except.toOption]

/-- It makes no difference to the tokens where the source begins. -/
theorem spelled_scanFrom (o : Nat) (gs : List Glyph) : spelled (scanFrom 0 o gs) = words gs := by
  have hlater := scanFrom_add 0 0 o gs
  rw [Nat.zero_add] at hlater
  rw [hlater, words, scan]
  cases scanFrom 0 0 gs with
  | error e => rfl
  | ok ts =>
    change some ((ts.map (Lexeme.move (· + o))).map Lexeme.token) = some (ts.map Lexeme.token)
    rw [List.map_map]
    rfl

theorem words_nil : words [] = some [] := rfl

theorem words_skip {g : Glyph} {pre gs : List Glyph}
    (hitem : lexeme g.toChar (pre ++ gs) = .ok ⟨none, pre.length⟩) :
    words (g :: (pre ++ gs)) = words gs := by
  rw [words, scan, scanFrom_space pre 0 hitem, spelled_scanFrom]

theorem words_token {g : Glyph} {pre gs : List Glyph} {token : Token}
    (hitem : lexeme g.toChar (pre ++ gs) = .ok ⟨some token, pre.length⟩) :
    words (g :: (pre ++ gs)) = (words gs).map (token :: ·) := by
  rw [words, scan, scanFrom_lexeme hitem, ← spelled_scanFrom (0 + g.width + Glyph.widths pre)]
  cases scanFrom 0 (0 + g.width + Glyph.widths pre) gs <;> rfl

/-- The tokens of a source stand before those of what is behind it. -/
theorem words_append {gs tail : List Glyph}
    (hitems : ∀ u g v, gs = u ++ g :: v → lexeme g.toChar (v ++ tail) = lexeme g.toChar v) :
    words (gs ++ tail) = (words gs).bind fun w => (words tail).map (w ++ ·) := by
  rw [words, scan, scanFrom_append_of 0 hitems (Nat.zero_le _),
    ← spelled_scanFrom (0 + Glyph.widths gs) tail]
  change spelled (scan gs >>= _) = (spelled (scan gs)).bind _
  cases scan gs with
  | error e => rfl
  | ok ts =>
    cases scanFrom 0 (0 + Glyph.widths gs) tail with
    | error e => rfl
    | ok ts' => simp [spelled, Except.toOption, bind, Except.bind, pure, Except.pure]

/-! ### Layout leaves no tokens -/

/-- Layout up to the end of the source, where a comment may lack its line break, or up to
    something else. -/
def Runs (gap after : List UInt8) : Prop :=
  ∃ whole last, gap = whole ++ last ∧ Layout whole ∧ LastComment last ∧ (last = [] ∨ after = [])

theorem Layout.runs {gap : List UInt8} (h : Layout gap) (after : List UInt8) : Runs gap after :=
  ⟨gap, [], (List.append_nil gap).symm, h, .inl rfl, .inl rfl⟩

theorem decode_hash (rest : List UInt8) : decode (0x23 :: rest) = .char '#' :: decode rest :=
  decode_char '#' rest

theorem decode_break (rest : List UInt8) : decode (0x0A :: rest) = .char '\n' :: decode rest :=
  decode_char '\n' rest

/-- A comment ends at its line break, which stands for itself. -/
theorem decode_comment (body rest : List UInt8) :
    decode (0x23 :: (body ++ 0x0A :: rest)) =
      .char '#' :: (decode body ++ .char '\n' :: decode rest) := by
  rw [decode_hash, decode_append (by decide), decode_break]

theorem break_not_mem_decode {body : List UInt8} (h : 0x0A ∉ body) : .char '\n' ∉ decode body := by
  intro hmem
  refine h ?_
  rw [← encode_decode body]
  exact List.mem_flatMap.mpr ⟨_, hmem, .head _⟩

theorem lexeme_comment {body : List UInt8} (hbody : 0x0A ∉ body) {gs : List Glyph}
    (hgs : ∀ g ∈ gs.head?, g = .char '\n') :
    lexeme '#' (decode body ++ gs) = .ok ⟨none, (decode body).length⟩ := by
  have hinside : ∀ g ∈ decode body, (g.toChar != '\n') = true := by
    intro g hg
    rw [bne_iff_ne, ne_eq, toChar_eq_iff (by decide)]
    rintro rfl
    exact break_not_mem_decode hbody hg
  have hrun : run (· != '\n') (decode body ++ gs) = (decode body).map Glyph.toChar := by
    refine run_append_eq_map hinside fun g hg => ?_
    rw [hgs g hg]
    rfl
  change Except.ok (Item.mk none (run (· != '\n') (decode body ++ gs)).length) = _
  rw [hrun, List.length_map]

theorem lexeme_space {c : Char} (hc : Text.isSpace c = true) (rest : List Glyph) :
    lexeme c rest = .ok ⟨none, 0⟩ := by
  rw [lexeme, if_pos hc]

theorem decode_layout {gap : List UInt8} (h : Layout gap) (rest : List UInt8) :
    decode (gap ++ rest) = decode gap ++ decode rest := by
  induction h with
  | nil => rfl
  | space hc hrest ih => rw [List.append_assoc, decode_char, decode_char, ih, List.cons_append]
  | comment hbody hrest ih =>
    rw [List.cons_append, List.append_assoc, List.cons_append, decode_comment, decode_comment, ih]
    simp

/-- **Layout leaves no tokens.** -/
theorem words_layout {gap : List UInt8} (h : Layout gap) (gs : List Glyph) :
    words (decode gap ++ gs) = words gs := by
  induction h with
  | nil => rfl
  | @space c rest hc hrest ih =>
    rw [decode_char, List.cons_append, ← ih]
    exact @words_skip (.char c) [] _ (lexeme_space hc _)
  | @comment body rest hbody hrest ih =>
    have hskip : words (.char '#' :: (decode body ++ .char '\n' :: (decode rest ++ gs))) =
        words (.char '\n' :: (decode rest ++ gs)) := by
      refine words_skip (lexeme_comment hbody fun g hg => ?_)
      exact (Option.some.inj hg).symm
    rw [decode_comment, List.cons_append, List.append_assoc, List.cons_append, hskip, ← ih]
    exact @words_skip (.char '\n') [] _ rfl

theorem words_lastComment {last : List UInt8} (h : LastComment last) :
    words (decode last) = some [] := by
  rcases h with rfl | ⟨body, rfl, hbody⟩
  · rfl
  · rw [decode_hash, ← words_nil]
    have hitem : lexeme '#' (decode body ++ []) = .ok ⟨none, (decode body).length⟩ :=
      lexeme_comment hbody fun g hg => nomatch hg
    have hskip := words_skip (g := .char '#') hitem
    rwa [List.append_nil] at hskip

theorem decode_runs {gap after : List UInt8} (h : Runs gap after) :
    decode (gap ++ after) = decode gap ++ decode after := by
  obtain ⟨whole, last, rfl, hwhole, -, rfl | rfl⟩ := h
  · rw [List.append_nil]
    exact decode_layout hwhole after
  · rw [List.append_nil]
    exact (List.append_nil _).symm

theorem words_runs {gap after : List UInt8} (h : Runs gap after) :
    words (decode (gap ++ after)) = words (decode after) := by
  obtain ⟨whole, last, rfl, hwhole, hlast, rfl | rfl⟩ := h
  · rw [List.append_nil, decode_layout hwhole, words_layout hwhole]
  · rw [List.append_nil, decode_layout hwhole, words_layout hwhole, words_lastComment hlast]
    rfl

/-! ### What stands around a gap -/

theorem isSpace_of_isUnitBlank {c : Char} (h : isUnitBlank c = true) : Text.isSpace c = true := by
  simp only [isUnitBlank, Bool.or_eq_true, beq_iff_eq] at h
  rcases h with ((rfl | rfl) | rfl) | rfl <;> decide

/-- White space ends a word. -/
theorem isIdentChar_eq_false_of_isSpace {c : Char} (h : Text.isSpace c = true) :
    isIdentChar c = false := by
  have hall : ([0x09, 0x0A, 0x0B, 0x0C, 0x0D, 0x20] ++ Text.wideSpaces).all
      (fun n => !isIdentChar (Char.ofNat n)) = true := by decide +kernel
  have hmem : c.toNat ∈ [0x09, 0x0A, 0x0B, 0x0C, 0x0D, 0x20] ++ Text.wideSpaces := by
    simp only [Text.isSpace, Text.inRanges, List.any_cons, List.any_nil, Bool.or_false,
      Bool.or_eq_true, Bool.and_eq_true, decide_eq_true_eq] at h
    simp only [Text.wideSpaces, List.cons_append, List.nil_append, List.mem_cons,
      List.not_mem_nil, or_false]
    omega
  have hc := List.all_eq_true.mp hall _ hmem
  rwa [Char.ofNat_toNat, Bool.not_eq_true'] at hc

/-- A gap begins with white space or with the sign of a comment. -/
theorem Runs.exists_head {gap after : List UInt8} (h : Runs gap after) (hne : gap ≠ []) :
    ∃ c rest, gap ++ after = String.utf8EncodeChar c ++ rest ∧
      (Text.isSpace c = true ∨ c = '#') := by
  obtain ⟨whole, last, rfl, hwhole, hlast, -⟩ := h
  cases hwhole with
  | nil =>
    rcases hlast with rfl | ⟨body, rfl, -⟩
    · exact absurd rfl hne
    · exact ⟨'#', body ++ after, rfl, .inr rfl⟩
  | @space c rest hc hrest =>
    exact ⟨c, rest ++ last ++ after, by simp only [List.append_assoc], .inl hc⟩
  | @comment body rest hbody hrest =>
    exact ⟨'#', body ++ 0x0A :: rest ++ last ++ after, rfl, .inr rfl⟩

theorem decode_before {before gap after : List UInt8} (h : Runs gap after) (hne : gap ≠ []) :
    decode (before ++ (gap ++ after)) = decode before ++ decode (gap ++ after) := by
  obtain ⟨c, rest, hhead, -⟩ := h.exists_head hne
  rw [hhead, decode_append_char]

theorem parts_runs {gap after : List UInt8} (h : Runs gap after) (hne : gap ≠ []) :
    Parts (decode (gap ++ after)) := by
  obtain ⟨c, rest, hhead, hc⟩ := h.exists_head hne
  rw [hhead, decode_char]
  have hother : ∀ d, Text.isSpace d = false → d ≠ '#' → c ≠ d := by
    rintro d hspace hhash rfl
    rcases hc with hc | hc
    · exact absurd (hc.symm.trans hspace) (by decide)
    · exact hhash hc
  refine ⟨?_, ?_, ?_⟩
  · intro g hg
    obtain rfl := Option.some.inj hg
    rcases hc with hc | rfl
    · exact isIdentChar_eq_false_of_isSpace hc
    · decide
  · simpa using hother '=' (by decide) (by decide)
  · simpa using hother ';' (by decide) (by decide)

/-- Every character is one of the four that may stand between the parentheses of `()`. -/
def Blank (gap : List UInt8) : Prop := ∀ g ∈ decode gap, isUnitBlank g.toChar = true

/-- A parenthesis closes behind layout if all of this is blank. -/
theorem closes_layout {gap : List UInt8} (h : Layout gap) (gs : List Glyph) :
    Closes (decode gap ++ gs) ↔ Blank gap ∧ Closes gs := by
  induction h with
  | nil => simp [Blank, decode, decodeFrom]
  | @space c rest hc hrest ih =>
    have hblank : Blank (String.utf8EncodeChar c ++ rest) ↔ isUnitBlank c = true ∧ Blank rest := by
      rw [Blank, decode_char, List.forall_mem_cons]
      exact Iff.rfl
    rw [hblank, decode_char, List.cons_append]
    cases hunit : isUnitBlank c with
    | true =>
      rw [closes_cons_blank (g := .char c) hunit, ih]
      simp
    | false =>
      rw [closes_cons_other (g := .char c) hunit]
      simp only [Bool.false_eq_true, false_and, iff_false]
      rintro heq
      obtain rfl := Glyph.char.inj heq
      exact absurd hc (by decide)
  | @comment body rest hbody hrest ih =>
    rw [Blank, decode_comment, List.cons_append, closes_cons_other (by decide)]
    simp only [List.mem_cons, forall_eq_or_imp]
    exact iff_of_false (by decide) fun h => absurd h.1.1 (by decide)

/-- What is in front of a gap, glyph by glyph, scans as if the gap were not there. -/
theorem lexeme_before {gs tail : List Glyph} (htail : Parts tail)
    (houtside : ∀ u v, gs = u ++ .char '#' :: v → .char '\n' ∈ v)
    (hclose : ¬ Closes tail ∨ ∀ u v, gs = u ++ .char '(' :: v →
      ∃ g ∈ v, isUnitBlank g.toChar = false) :
    ∀ u g v, gs = u ++ g :: v → lexeme g.toChar (v ++ tail) = lexeme g.toChar v := by
  intro u g v hgs
  refine lexeme_append_of htail ?_ ?_
  · intro hg
    rw [toChar_eq_iff (by decide)] at hg
    subst hg
    exact run_append_of_mem (houtside u v hgs) (by decide)
  · intro hg
    rw [toChar_eq_iff (by decide)] at hg
    subst hg
    exact parenthesis_append_of (hclose.imp id fun h => h u v hgs)

/-- Behind a gap, only what is there can close a parenthesis. -/
theorem head?_of_closes {gap after : List UInt8} (h : Runs gap after)
    (hafter : ∀ g ∈ (decode after).head?, Text.isSpace g.toChar = false)
    (hclose : Closes (decode (gap ++ after))) : (decode after).head? = some (.char ')') := by
  obtain ⟨whole, last, rfl, hwhole, hlast, hend⟩ := h
  rw [List.append_assoc, decode_layout hwhole, closes_layout hwhole] at hclose
  have hclose := hclose.2
  rcases hend with rfl | rfl
  · rw [List.nil_append] at hclose
    cases hglyphs : decode after with
    | nil =>
      rw [hglyphs] at hclose
      exact absurd hclose not_closes_nil
    | cons g gs =>
      rw [hglyphs] at hclose hafter
      have hother : isUnitBlank g.toChar = false := by
        rw [← Bool.not_eq_true]
        intro hblank
        exact absurd (isSpace_of_isUnitBlank hblank) (by simp [hafter g rfl])
      rw [closes_cons_other hother] at hclose
      rw [hclose, List.head?_cons]
  · rw [List.append_nil] at hclose
    rcases hlast with rfl | ⟨body, rfl, -⟩
    · exact absurd hclose not_closes_nil
    · rw [decode_hash, closes_cons_other (by decide)] at hclose
      cases hclose

/-- **Layout keeps apart what stands around it**: the tokens are those of what is in front
    and those of what is behind, unless a parenthesis opened in front is closed behind. -/
theorem words_around {before gap after : List UInt8} (hgap : Runs gap after) (hne : gap ≠ [])
    (houtside : ∀ u v, decode before = u ++ .char '#' :: v → .char '\n' ∈ v)
    (hclose : ¬ Closes (decode (gap ++ after)) ∨ ∀ u v, decode before = u ++ .char '(' :: v →
      ∃ g ∈ v, isUnitBlank g.toChar = false) :
    words (decode (before ++ (gap ++ after))) =
      (words (decode before)).bind fun w => (words (decode after)).map (w ++ ·) := by
  rw [decode_before hgap hne,
    words_append (lexeme_before (parts_runs hgap hne) houtside hclose), words_runs hgap]

/-- The tokens of two parentheses with layout between them. -/
theorem words_parentheses {gap : List UInt8} (hgap : Layout gap) (gs : List Glyph) :
    (Blank gap → words (.char '(' :: (decode gap ++ .char ')' :: gs)) =
      (words gs).map (.unit :: ·)) ∧
    (¬ Blank gap → words (.char '(' :: (decode gap ++ .char ')' :: gs)) =
      (words gs).map fun w => .lparen :: .rparen :: w) := by
  have hcloses := closes_layout hgap (.char ')' :: gs)
  rw [closes_cons_other (by decide), eq_self, and_true] at hcloses
  constructor
  · intro hblank
    have hrun : run isUnitBlank (decode gap ++ .char ')' :: gs) = (decode gap).map Glyph.toChar := by
      refine run_append_eq_map hblank fun g hg => ?_
      obtain rfl := Option.some.inj hg
      decide
    have hitem : lexeme '(' ((decode gap ++ [Glyph.char ')']) ++ gs) =
        .ok ⟨some .unit, (decode gap ++ [Glyph.char ')']).length⟩ := by
      rw [List.append_assoc, List.singleton_append]
      change Except.ok (parenthesis _) = _
      rw [parenthesis_of_closes (hcloses.mpr hblank), hrun, List.length_map, List.length_append]
      rfl
    have hwords := words_token (g := .char '(') hitem
    rwa [List.append_assoc, List.singleton_append] at hwords
  · intro hblank
    have hopen : lexeme '(' (decode gap ++ .char ')' :: gs) = .ok ⟨some .lparen, 0⟩ := by
      change Except.ok (parenthesis _) = _
      rw [parenthesis_of_not_closes fun h => hblank (hcloses.mp h)]
    have hclose : words (.char ')' :: gs) = (words gs).map (.rparen :: ·) :=
      @words_token (.char ')') [] gs .rparen rfl
    have hwords : words (.char '(' :: (decode gap ++ .char ')' :: gs)) =
        (words (decode gap ++ .char ')' :: gs)).map (.lparen :: ·) :=
      @words_token (.char '(') [] _ .lparen hopen
    rw [hwords, words_layout hgap, hclose, Option.map_map]
    rfl

/-- A parenthesis in front of layout begins a token of its own, whatever comes then. -/
theorem words_opened {us gs : List Glyph}
    (houtside : ∀ u v, us = u ++ .char '#' :: v → .char '\n' ∈ v) :
    words (us ++ .char '(' :: gs) =
      (words us).bind fun w => (words (.char '(' :: gs)).map (w ++ ·) := by
  refine words_append (lexeme_before ⟨?_, by simp, by simp⟩ houtside (.inl ?_))
  · intro g hg
    obtain rfl := Option.some.inj hg
    decide
  · rw [closes_cons_other (by decide)]
    simp

end MiniML
