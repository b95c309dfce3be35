/-
  MiniML/Proofs/Source/Separation.lean
  ====================================
  **Sources next to each other** — a source is scanned as if nothing stood behind it, as
  long as no item of it depends on that (`scanFrom_append_of`).  The scanner looks ahead in
  few ways: to the end of a word, of a numeral and of a comment, for the second character
  of `:=` and `;;`, and over blanks for the closing parenthesis of `()`
  (`lexeme_append_of`).

  Two sources with a line break, `;;` and another line break between them are scanned one
  by one: all looking ahead stops at the line break or just behind it (`lexeme_append`).
  The second source only begins at another offset (`scanFrom_add`).
-/
import MiniML.Proofs.Source.Scanning

namespace MiniML

/-- The same token at another offset. -/
def Lexeme.move (f : Nat → Nat) (l : Lexeme) : Lexeme := { l with offset := f l.offset }

/-- The same fault at another offset. -/
def ParseError.move (f : Nat → Nat) (e : ParseError) : ParseError := { e with offset := f e.offset }

namespace Scan

/-! ### Where the scanner looks ahead -/

section Lookahead

variable {gs tail : List Glyph}

theorem run_cons (p : Char → Bool) (g : Glyph) (gs : List Glyph) :
    run p (g :: gs) = if p g.toChar then g.toChar :: run p gs else [] := by
  rw [run, List.map_cons, List.takeWhile_cons]
  rfl

/-- A run ends with a source if what stands behind it is outside the class. -/
theorem run_append_of_stop {p : Char → Bool} (h : ∀ g ∈ tail.head?, p g.toChar = false) :
    run p (gs ++ tail) = run p gs := by
  induction gs with
  | nil =>
    cases tail with
    | nil => rfl
    | cons g tail =>
      rw [List.nil_append, run_cons, h g rfl]
      rfl
  | cons g gs ih => rw [List.cons_append, run_cons, run_cons, ih]

/-- A run ends within a source if something in it is outside the class. -/
theorem run_append_of_mem {p : Char → Bool} {g : Glyph} (hg : g ∈ gs) (h : p g.toChar = false) :
    run p (gs ++ tail) = run p gs := by
  induction gs with
  | nil => exact absurd hg List.not_mem_nil
  | cons g' gs ih =>
    rw [List.cons_append, run_cons, run_cons]
    rcases List.mem_cons.mp hg with rfl | hg
    · simp [h]
    · rw [ih hg]

/-- A run is all of a source if nothing in it, and only what stands behind it, is outside the
    class. -/
theorem run_append_eq_map {p : Char → Bool} (hgs : ∀ g ∈ gs, p g.toChar = true)
    (htail : ∀ g ∈ tail.head?, p g.toChar = false) :
    run p (gs ++ tail) = gs.map Glyph.toChar := by
  induction gs with
  | nil => exact run_append_of_stop htail
  | cons g gs ih =>
    rw [List.cons_append, run_cons, if_pos (hgs g List.mem_cons_self),
      ih fun g' hg' => hgs g' (List.mem_cons_of_mem _ hg'), List.map_cons]

/-- A closing parenthesis follows after blanks only. -/
def Closes (gs : List Glyph) : Prop :=
  (gs.drop (run isUnitBlank gs).length).head? = some (.char ')')

theorem not_closes_nil : ¬ Closes [] := by
  simp [Closes]

theorem closes_cons_blank {g : Glyph} (h : isUnitBlank g.toChar = true) :
    Closes (g :: gs) ↔ Closes gs := by
  simp [Closes, run_cons, h]

theorem closes_cons_other {g : Glyph} (h : isUnitBlank g.toChar = false) :
    Closes (g :: gs) ↔ g = .char ')' := by
  simp [Closes, run_cons, h]

theorem parenthesis_of_closes (h : Closes gs) :
    parenthesis gs = ⟨some .unit, (run isUnitBlank gs).length + 1⟩ :=
  if_pos h

theorem parenthesis_of_not_closes (h : ¬ Closes gs) : parenthesis gs = ⟨some .lparen, 0⟩ :=
  if_neg h

/-- What stands behind a source closes no parenthesis in it, or there is something in the
    source that keeps it from doing so. -/
theorem closes_append_of (h : ¬ Closes tail ∨ ∃ g ∈ gs, isUnitBlank g.toChar = false) :
    (Closes (gs ++ tail) ↔ Closes gs) ∧
      (Closes gs → run isUnitBlank (gs ++ tail) = run isUnitBlank gs) := by
  induction gs with
  | nil =>
    have htail : ¬ Closes tail := h.elim id fun ⟨g, hg, _⟩ => absurd hg List.not_mem_nil
    exact ⟨iff_of_false htail not_closes_nil, fun hclose => absurd hclose not_closes_nil⟩
  | cons g gs ih =>
    rw [List.cons_append, run_cons, run_cons]
    cases hblank : isUnitBlank g.toChar with
    | false =>
      rw [closes_cons_other hblank, closes_cons_other hblank]
      exact ⟨Iff.rfl, fun _ => rfl⟩
    | true =>
      rw [closes_cons_blank hblank, closes_cons_blank hblank]
      have hrest : ¬ Closes tail ∨ ∃ g ∈ gs, isUnitBlank g.toChar = false := by
        refine h.imp id ?_
        rintro ⟨g', hg', hother⟩
        rcases List.mem_cons.mp hg' with rfl | hg'
        · exact absurd (hblank.symm.trans hother) (by decide)
        · exact ⟨g', hg', hother⟩
      obtain ⟨hiff, hrun⟩ := ih hrest
      exact ⟨hiff, fun hclose => by rw [hrun hclose]⟩

theorem parenthesis_append_of (h : ¬ Closes tail ∨ ∃ g ∈ gs, isUnitBlank g.toChar = false) :
    parenthesis (gs ++ tail) = parenthesis gs := by
  obtain ⟨hiff, hrun⟩ := closes_append_of h
  by_cases hclose : Closes gs
  · rw [parenthesis_of_closes (hiff.mpr hclose), parenthesis_of_closes hclose, hrun hclose]
  · rw [parenthesis_of_not_closes fun h => hclose (hiff.mp h), parenthesis_of_not_closes hclose]

/-- Words, numerals and signs end before these glyphs. -/
structure Parts (tail : List Glyph) : Prop where
  word : ∀ g ∈ tail.head?, isIdentChar g.toChar = false
  assign : tail.head? ≠ some (.char '=')
  semi : tail.head? ≠ some (.char ';')

theorem head?_append_of {g : Glyph} (hg : tail.head? ≠ some g) :
    (gs ++ tail).head? = some g ↔ gs.head? = some g := by
  cases gs with
  | nil => simp [hg]
  | cons g' gs => rfl

/-- What stands at the front of a source depends on what stands behind the source only if it
    is a comment or a parenthesis. -/
theorem lexeme_append_of {c : Char} (htail : Parts tail)
    (hcomment : c = '#' → run (· != '\n') (gs ++ tail) = run (· != '\n') gs)
    (hparen : c = '(' → parenthesis (gs ++ tail) = parenthesis gs) :
    lexeme c (gs ++ tail) = lexeme c gs := by
  have hword : word c (gs ++ tail) = word c gs := by
    simp only [word, run_append_of_stop htail.word]
  have hdigits : run Text.isAsciiDigit (gs ++ tail) = run Text.isAsciiDigit gs := by
    refine run_append_of_stop fun g hg => ?_
    rw [← Bool.not_eq_true]
    intro hdigit
    exact absurd (isIdentChar_of_isAsciiDigit _ hdigit) (by simp [htail.word g hg])
  simp only [lexeme, hword, hdigits, head?_append_of htail.assign, head?_append_of htail.semi]
  refine ite_congr rfl (fun _ => rfl) fun _ => ?_
  refine ite_congr rfl (fun h => by rw [hcomment h]) fun _ => ?_
  refine ite_congr rfl (fun _ => rfl) fun _ => ?_
  refine ite_congr rfl (fun _ => rfl) fun _ => ?_
  exact ite_congr rfl (fun h => by rw [hparen h]) fun _ => rfl

end Lookahead

/-- A line break and a semicolon. -/
def breaks : List Glyph := [.char '\n', .char ';']

/-- What stands at the front of a source does not depend on what stands behind a line break
    and a semicolon after it. -/
theorem lexeme_append (gs tail : List Glyph) (c : Char) :
    lexeme c (gs ++ breaks ++ tail) = lexeme c gs := by
  have hbreak : ∀ p : Char → Bool, p '\n' = false →
      ∀ g ∈ (breaks ++ tail).head?, p g.toChar = false := by
    intro p hp g hg
    obtain rfl := Option.some.inj hg
    exact hp
  have hcloses : ¬ Closes (breaks ++ tail) := by
    have hblank : isUnitBlank (Glyph.char '\n').toChar = true := by decide
    have hsemi : isUnitBlank (Glyph.char ';').toChar = false := by decide
    change ¬ Closes (.char '\n' :: .char ';' :: tail)
    rw [closes_cons_blank hblank, closes_cons_other hsemi]
    decide
  rw [List.append_assoc]
  refine lexeme_append_of ⟨hbreak _ (by decide), by simp [breaks], by simp [breaks]⟩ ?_ ?_
  · exact fun _ => run_append_of_stop (hbreak (· != '\n') (by decide))
  · exact fun _ => parenthesis_append_of (.inl hcloses)

/-! ### Items end within the source -/

theorem length_run_le (p : Char → Bool) (gs : List Glyph) : (run p gs).length ≤ gs.length := by
  have h := (List.takeWhile_prefix p (l := gs.map Glyph.toChar)).length_le
  rwa [List.length_map] at h

theorem more_parenthesis_le (rest : List Glyph) : (parenthesis rest).more ≤ rest.length := by
  simp only [parenthesis]
  split
  · rename_i h
    have hne : rest.drop (run isUnitBlank rest).length ≠ [] := by
      intro hnil
      rw [hnil] at h
      cases h
    exact List.length_lt_of_drop_ne_nil hne
  · exact Nat.zero_le _

theorem one_le_length {gs : List Glyph} {g : Glyph} (h : gs.head? = some g) : 1 ≤ gs.length := by
  cases gs with
  | nil => cases h
  | cons g gs => exact Nat.succ_pos _

/-- An item does not go beyond the source. -/
theorem more_le {c : Char} {rest : List Glyph} {item : Item} (h : lexeme c rest = .ok item) :
    item.more ≤ rest.length := by
  have hword : ∀ {item}, word c rest = .ok item → item.more ≤ rest.length := by
    intro item h
    rw [word.eq_def] at h
    simp only at h
    split at h
    · cases h
      exact length_run_le _ _
    · split at h
      · cases h
      · cases h
        exact length_run_le _ _
  revert h
  fun_cases lexeme c rest with
  | case1 | case3 | case4 | case6 | case7 | case8 =>
    intro h
    cases h
    exact Nat.zero_le _
  | case2 | case13 =>
    intro h
    cases h
    exact length_run_le _ _
  | case5 =>
    intro h
    cases h
    exact more_parenthesis_le _
  | case9 | case11 =>
    intro h
    cases h
    exact one_le_length ‹_›
  | case10 | case12 | case15 => exact fun h => nomatch h
  | case14 => exact hword

/-! ### Scanning -/

/-- The tokens of a source that begins later stand later. -/
theorem scanFrom_add (skip offset k : Nat) (gs : List Glyph) :
    scanFrom skip (offset + k) gs =
      ((scanFrom skip offset gs).map (List.map (Lexeme.move (· + k)))).mapError
        (ParseError.move (· + k)) := by
  induction gs generalizing skip offset with
  | nil =>
    cases skip <;> rfl
  | cons g rest ih =>
    have hoffset : offset + k + g.width = offset + g.width + k := Nat.add_right_comm _ _ _
    cases skip with
    | succ skip =>
      rw [scanFrom, scanFrom, hoffset]
      exact ih skip (offset + g.width)
    | zero =>
      rw [scanFrom, scanFrom, hoffset]
      cases lexeme g.toChar rest with
      | error fault => rfl
      | ok item =>
        simp only [ih item.more (offset + g.width)]
        cases scanFrom item.more (offset + g.width) rest with
        | error e => rfl
        | ok ts => cases item.token <;> rfl

/-- A source is scanned before what stands behind it, and as if nothing stood there, if no
    item of it depends on that. -/
theorem scanFrom_append_of {skip : Nat} (offset : Nat) {gs tail : List Glyph}
    (hitems : ∀ u g v, gs = u ++ g :: v → lexeme g.toChar (v ++ tail) = lexeme g.toChar v)
    (hskip : skip ≤ gs.length) :
    scanFrom skip offset (gs ++ tail) = (do
      let ts₁ ← scanFrom skip offset gs
      let ts₂ ← scanFrom 0 (offset + Glyph.widths gs) tail
      return ts₁ ++ ts₂) := by
  induction gs generalizing skip offset with
  | nil =>
    obtain rfl := Nat.le_zero.mp hskip
    cases hrun : scanFrom 0 offset tail <;> simp [scanFrom, Glyph.widths, hrun] <;> rfl
  | cons g rest ih =>
    have hwidths : offset + Glyph.widths (g :: rest) = offset + g.width + Glyph.widths rest :=
      (Nat.add_assoc _ _ _).symm
    have hrest : ∀ u g' v, rest = u ++ g' :: v →
        lexeme g'.toChar (v ++ tail) = lexeme g'.toChar v := by
      rintro u g' v rfl
      exact hitems (g :: u) g' v rfl
    cases skip with
    -- a glyph that an item before it has taken in
    | succ skip =>
      rw [List.cons_append, scanFrom, scanFrom, hwidths]
      exact ih (offset + g.width) hrest (Nat.le_of_succ_le_succ hskip)
    | zero =>
      rw [List.cons_append, scanFrom, scanFrom, hitems [] g rest rfl, hwidths]
      cases hitem : lexeme g.toChar rest with
      | error fault => rfl
      | ok item =>
        simp only [ih (offset + g.width) hrest (more_le hitem)]
        cases scanFrom item.more (offset + g.width) rest with
        | error e => rfl
        | ok ts₁ =>
          cases item.token <;>
            cases scanFrom 0 (offset + g.width + Glyph.widths rest) tail <;> rfl

/-- A source is scanned before what stands behind a line break and a semicolon. -/
theorem scanFrom_append {skip : Nat} (offset : Nat) (gs tail : List Glyph)
    (hskip : skip ≤ gs.length) :
    scanFrom skip offset (gs ++ breaks ++ tail) = (do
      let ts₁ ← scanFrom skip offset gs
      let ts₂ ← scanFrom 0 (offset + Glyph.widths gs) (breaks ++ tail)
      return ts₁ ++ ts₂) := by
  rw [List.append_assoc]
  refine scanFrom_append_of offset (fun u g v _ => ?_) hskip
  rw [← List.append_assoc]
  exact lexeme_append v tail g.toChar

/-- The separator of two sources is one token. -/
theorem scanFrom_separator (offset : Nat) (gs : List Glyph) :
    scanFrom 0 offset (breaks ++ .char ';' :: .char '\n' :: gs) = (do
      let ts ← scanFrom 0 (offset + 4) gs
      return ⟨.semi, offset + 1⟩ :: ts) := by
  have hsemi : ∀ rest, lexeme ';' (.char ';' :: rest) = .ok ⟨some .semi, 1⟩ := fun _ => rfl
  have hspace : ∀ rest, lexeme '\n' rest = .ok ⟨none, 0⟩ := fun _ => rfl
  simp only [breaks, List.cons_append, List.nil_append, scanFrom, Glyph.toChar, hsemi, hspace]
  have hwidths : offset + (Glyph.char '\n').width + (Glyph.char ';').width +
      (Glyph.char ';').width + (Glyph.char '\n').width = offset + 4 := rfl
  rw [hwidths]
  cases scanFrom 0 (offset + 4) gs <;> rfl

end Scan

/-- Two sources with a line break, `;;` and a line break between them have the tokens of
    both, if both have tokens. -/
theorem scan_separated {gs₁ gs₂ : List Glyph} {ts : List Lexeme} :
    scan (gs₁ ++ Scan.breaks ++ .char ';' :: .char '\n' :: gs₂) = .ok ts ↔
      ∃ ts₁ ts₂, scan gs₁ = .ok ts₁ ∧ scan gs₂ = .ok ts₂ ∧
        ts = ts₁ ++ ⟨.semi, Glyph.widths gs₁ + 1⟩ ::
          ts₂.map (Lexeme.move (· + (Glyph.widths gs₁ + 4))) := by
  have hlater : Scan.scanFrom 0 (Glyph.widths gs₁ + 4) gs₂ =
      ((scan gs₂).map (List.map (Lexeme.move (· + (Glyph.widths gs₁ + 4))))).mapError
        (ParseError.move (· + (Glyph.widths gs₁ + 4))) := by
    rw [scan, ← Scan.scanFrom_add, Nat.zero_add]
  have hscan := Scan.scanFrom_append 0 gs₁ (.char ';' :: .char '\n' :: gs₂) (Nat.zero_le _)
  rw [Scan.scanFrom_separator, Nat.zero_add, hlater] at hscan
  change scan _ = (scan gs₁ >>= _) at hscan
  rw [hscan]
  -- a fault in either source is a fault of the whole
  cases h₁ : scan gs₁ with
  | error e =>
    constructor
    · exact fun h => nomatch h
    · rintro ⟨ts₁, ts₂, h, -, -⟩
      cases h
  | ok ts₁ =>
    cases h₂ : scan gs₂ with
    | error e =>
      constructor
      · exact fun h => nomatch h
      · rintro ⟨ts₁, ts₂, -, h, -⟩
        cases h
    | ok ts₂ =>
      constructor
      · intro h
        exact ⟨ts₁, ts₂, rfl, rfl, (Except.ok.inj h).symm⟩
      · rintro ⟨ts₁', ts₂', h₁', h₂', rfl⟩
        cases h₁'
        cases h₂'
        rfl

end MiniML
