/-
  MiniML/Proofs/Source/Scanning.lean
  ==================================
  **Scanning, item by item** — what the scanner makes of a text is known once it is
  known for the part behind the first item: one lemma for each kind of item says when
  this item stands at the front of a text.

  Where an item ends depends on what follows.  A word or a numeral ends at a character
  that cannot continue a word (`Stops`), and an opening parenthesis is one of its own
  only if it is not the beginning of `()`.
-/
import Mathlib.Tactic.IntervalCases
import MiniML.Source.Scan
import MiniML.Name

namespace MiniML

/-! ### Letters, digits and space -/

namespace Text

/-- The code points of white space above ASCII. -/
def wideSpaces : List Nat :=
  [0x85, 0xA0, 0x1680, 0x2000, 0x2001, 0x2002, 0x2003, 0x2004, 0x2005, 0x2006, 0x2007, 0x2008,
   0x2009, 0x200A, 0x2028, 0x2029, 0x202F, 0x205F, 0x3000]

theorem inRanges_letterRanges_of_mem_wideSpaces {n : Nat} (h : n ∈ wideSpaces) :
    inRanges letterRanges n = false := by
  have hall : wideSpaces.all (fun n => !inRanges letterRanges n) = true := by decide +kernel
  simpa using List.all_eq_true.mp hall n h

theorem isAsciiDigit_iff {c : Char} : isAsciiDigit c = true ↔ 48 ≤ c.toNat ∧ c.toNat ≤ 57 := by
  simp only [isAsciiDigit, Bool.and_eq_true, decide_eq_true_eq, Char.le_def,
    UInt32.le_iff_toNat_le]
  exact Iff.rfl

/-- The space between words begins no word. -/
theorem isSpace_eq_false_of_isLetter {c : Char} (h : isLetter c = true) : isSpace c = false := by
  rw [← Bool.not_eq_true]
  intro hspace
  simp only [isSpace, inRanges, List.any_cons, List.any_nil, Bool.or_false, Bool.or_eq_true,
    Bool.and_eq_true, decide_eq_true_eq] at hspace
  rw [isLetter] at h
  split at h
  · simp only [Bool.or_eq_true, Bool.and_eq_true, decide_eq_true_eq, Char.le_def,
      UInt32.le_iff_toNat_le] at h
    change 97 ≤ c.toNat ∧ c.toNat ≤ 122 ∨ 65 ≤ c.toNat ∧ c.toNat ≤ 90 at h
    omega
  · have hwide : c.toNat ∈ wideSpaces := by
      simp only [wideSpaces, List.mem_cons, List.not_mem_nil, or_false]
      omega
    rw [inRanges_letterRanges_of_mem_wideSpaces hwide] at h
    cases h

theorem isDigit_of_isAsciiDigit {c : Char} (h : isAsciiDigit c = true) : isDigit c = true := by
  have hrange := isAsciiDigit_iff.mp h
  rw [isDigit, if_pos (by omega), h]

theorem mem_of_isAsciiDigit {c : Char} (h : isAsciiDigit c = true) :
    c ∈ ['0', '1', '2', '3', '4', '5', '6', '7', '8', '9'] := by
  obtain ⟨hlo, hhi⟩ := isAsciiDigit_iff.mp h
  rw [← Char.ofNat_toNat c]
  generalize c.toNat = n at hlo hhi
  interval_cases n <;> decide

end Text

namespace Scan

/-! ### Words and names -/

/-- A letter other than `λ`, and characters that continue a word. -/
def IsWord (x : String) : Prop :=
  ∃ c cs, x.toList = c :: cs ∧ Text.isLetter c = true ∧ c ≠ 'λ' ∧ cs.all isIdentChar = true

instance (x : String) : Decidable (IsWord x) :=
  match h : x.toList with
  | [] => isFalse fun ⟨_, _, hx, _⟩ => absurd (h.symm.trans hx) (List.cons_ne_nil _ _).symm
  | c :: cs =>
    decidable_of_iff (Text.isLetter c = true ∧ c ≠ 'λ' ∧ cs.all isIdentChar = true)
      ⟨fun hc => ⟨c, cs, h, hc⟩, fun ⟨_, _, hx, hc⟩ =>
        have heq := List.cons.inj (h.symm.trans hx)
        heq.1 ▸ heq.2 ▸ hc⟩

/-- A name that can be written: the lone underscore, or a word that is not reserved. -/
def IsName (x : String) : Prop := x = "_" ∨ IsWord x ∧ Keyword.ofText? x = none

instance (x : String) : Decidable (IsName x) :=
  inferInstanceAs (Decidable (x = "_" ∨ IsWord x ∧ Keyword.ofText? x = none))

theorem isWord_text (k : Keyword) : IsWord k.text := by
  cases k <;> exact ⟨_, _, rfl, by decide, by decide, by decide⟩

theorem ofText?_text (k : Keyword) : Keyword.ofText? k.text = some k := by
  cases k <;> rfl

theorem ne_of_class {p : Char → Bool} {c d : Char} (hc : p c = true) (hd : p d = false) :
    c ≠ d := by
  rintro rfl
  rw [hc] at hd
  cases hd

/-- No character at the front of the text belongs to the class. -/
def Stops (p : Char → Bool) (cs : List Char) : Prop := ∀ c ∈ cs.head?, p c = false

theorem stops_nil (p : Char → Bool) : Stops p [] := by
  intro c hc
  cases hc

theorem stops_cons {p : Char → Bool} {c : Char} (h : p c = false) (cs : List Char) :
    Stops p (c :: cs) := by
  intro d hd
  obtain rfl := Option.some.inj hd
  exact h

theorem Stops.mono {p q : Char → Bool} {cs : List Char} (h : Stops p cs)
    (hpq : ∀ c, q c = true → p c = true) : Stops q cs := by
  intro c hc
  rw [← Bool.not_eq_true]
  intro hq
  exact absurd (hpq c hq) (by simp [h c hc])

theorem isIdentChar_of_isAsciiDigit (c : Char) (h : Text.isAsciiDigit c = true) :
    isIdentChar c = true := by
  have hne : c ≠ 'λ' := by
    rintro rfl
    exact absurd h (by decide)
  simp [isIdentChar, hne, Text.isDigit_of_isAsciiDigit h]

theorem takeWhile_append {p : Char → Bool} {xs cs : List Char} (hxs : xs.all p = true)
    (hcs : Stops p cs) : (xs ++ cs).takeWhile p = xs := by
  have hstop : cs.takeWhile p = [] := by
    cases cs with
    | nil => rfl
    | cons c cs => rw [List.takeWhile_cons, hcs c rfl, if_neg Bool.false_ne_true]
  rw [List.takeWhile_append_of_pos (List.all_eq_true.mp hxs), hstop, List.append_nil]

theorem dropWhile_append {p : Char → Bool} {xs cs : List Char} (hxs : xs.all p = true)
    (hcs : Stops p cs) : (xs ++ cs).dropWhile p = cs := by
  have hwhole := List.takeWhile_append_dropWhile (p := p) (l := xs ++ cs)
  rw [takeWhile_append hxs hcs] at hwhole
  exact List.append_cancel_left hwhole

/-- A run takes a stretch of a class up to where the class stops. -/
theorem run_append {p : Char → Bool} {xs cs : List Char} (hxs : xs.all p = true)
    (hcs : Stops p cs) : run p ((xs ++ cs).map .char) = xs := by
  have htext : ((xs ++ cs).map Glyph.char).map Glyph.toChar = xs ++ cs := by
    rw [List.map_map]
    exact List.map_id _
  rw [run, htext, takeWhile_append hxs hcs]

theorem run_eq_nil {p : Char → Bool} {cs : List Char} (hcs : Stops p cs) :
    run p (cs.map .char) = [] :=
  run_append (List.all_nil (f := p)) hcs

/-! ### Items -/

theorem scanFrom_length (offset : Nat) (pre gs : List Glyph) :
    scanFrom pre.length offset (pre ++ gs) = scanFrom 0 (offset + Glyph.widths pre) gs := by
  induction pre generalizing offset with
  | nil => rfl
  | cons g pre ih =>
    rw [List.length_cons, List.cons_append, scanFrom, ih, Nat.add_assoc]
    rfl

/-- A token at the front of a source stands before the tokens of the remainder. -/
theorem scanFrom_token {g : Glyph} {pre gs : List Glyph} {token : Token} {offset : Nat}
    {ts : List Lexeme} (hitem : lexeme g.toChar (pre ++ gs) = .ok ⟨some token, pre.length⟩)
    (hts : scanFrom 0 (offset + g.width + Glyph.widths pre) gs = .ok ts) :
    scanFrom 0 offset (g :: (pre ++ gs)) = .ok (⟨token, offset⟩ :: ts) := by
  rw [scanFrom, hitem]
  simp only [scanFrom_length, hts]

/-- Space at the front of a source leaves no token. -/
theorem scanFrom_space {g : Glyph} (pre : List Glyph) {gs : List Glyph} (offset : Nat)
    (hitem : lexeme g.toChar (pre ++ gs) = .ok ⟨none, pre.length⟩) :
    scanFrom 0 offset (g :: (pre ++ gs)) =
      scanFrom 0 (offset + g.width + Glyph.widths pre) gs := by
  rw [scanFrom, hitem]
  simp only [scanFrom_length]
  cases scanFrom 0 (offset + g.width + Glyph.widths pre) gs <;> rfl

/-! ### Texts and their tokens -/

/-- The text scans into these tokens, wherever it begins. -/
def Scans (cs : List Char) (ws : List Token) : Prop :=
  ∀ offset, ∃ ts, scanFrom 0 offset (cs.map .char) = .ok ts ∧ ts.map Lexeme.token = ws

theorem scans_nil : Scans [] [] := by
  intro offset
  exact ⟨[], rfl, rfl⟩

section Items

variable {cs : List Char} {ws : List Token}

theorem Scans.token (h : Scans cs ws) (pre : List Char) {c : Char} {token : Token}
    (hitem : lexeme c ((pre ++ cs).map .char) = .ok ⟨some token, pre.length⟩) :
    Scans (c :: (pre ++ cs)) (token :: ws) := by
  intro offset
  obtain ⟨ts, hts, rfl⟩ := h (offset + c.utf8Size + Glyph.widths (pre.map .char))
  refine ⟨⟨token, offset⟩ :: ts, ?_, rfl⟩
  rw [List.map_cons, List.map_append]
  rw [List.map_append, ← List.length_map Glyph.char] at hitem
  exact scanFrom_token hitem hts

theorem Scans.blank (h : Scans cs ws) : Scans (' ' :: cs) ws := by
  intro offset
  obtain ⟨ts, hts, hws⟩ := h (offset + 1)
  refine ⟨ts, ?_, hws⟩
  rw [← hts]
  exact scanFrom_space [] offset rfl

theorem Scans.rparen (h : Scans cs ws) : Scans (')' :: cs) (.rparen :: ws) :=
  h.token [] rfl

theorem Scans.dot (h : Scans cs ws) : Scans ('.' :: cs) (.dot :: ws) :=
  h.token [] rfl

theorem Scans.equals (h : Scans cs ws) : Scans ('=' :: cs) (.equals :: ws) :=
  h.token [] rfl

theorem Scans.bang (h : Scans cs ws) : Scans ('!' :: cs) (.bang :: ws) :=
  h.token [] rfl

theorem Scans.lambda (h : Scans cs ws) : Scans ('λ' :: cs) (.lambda 'λ' :: ws) :=
  h.token [] rfl

theorem Scans.assign (h : Scans cs ws) : Scans (':' :: '=' :: cs) (.assign :: ws) :=
  h.token ['='] rfl

theorem Scans.unit (h : Scans cs ws) : Scans ('(' :: ')' :: cs) (.unit :: ws) :=
  h.token [')'] rfl

/-- An opening parenthesis is not the beginning of `()` if a character follows that is
    neither a blank nor a closing parenthesis. -/
theorem Scans.lparen {c : Char} (h : Scans (c :: cs) ws) (hblank : isUnitBlank c = false)
    (hclose : c ≠ ')') : Scans ('(' :: c :: cs) (.lparen :: ws) := by
  have hrun : run isUnitBlank ((c :: cs).map .char) = [] := run_eq_nil (stops_cons hblank cs)
  refine h.token [] ?_
  change Except.ok (parenthesis ((c :: cs).map .char)) = _
  rw [parenthesis, hrun]
  simp [hclose]

/-- A letter begins a word. -/
theorem lexeme_letter {c : Char} (rest : List Glyph) (hc : Text.isLetter c = true)
    (hne : c ≠ 'λ') : lexeme c rest = word c rest := by
  have hother : ∀ d, Text.isLetter d = false → c ≠ d := by
    rintro d hd rfl
    exact absurd hc (by simp [hd])
  have hdigit : Text.isAsciiDigit c = false := by
    rw [← Bool.not_eq_true]
    intro h
    exact absurd hc (by simp [Text.isLetter_eq_false_of_isAsciiDigit h])
  rw [lexeme, if_neg (by simp [Text.isSpace_eq_false_of_isLetter hc]),
    if_neg (hother '#' (by decide)),
    if_neg (not_or.mpr ⟨hother '\\' (by decide), hne⟩), if_neg (hother '.' (by decide)),
    if_neg (hother '(' (by decide)), if_neg (hother ')' (by decide)),
    if_neg (hother '=' (by decide)), if_neg (hother '!' (by decide)),
    if_neg (hother ':' (by decide)), if_neg (hother ';' (by decide)), if_neg (by simp [hdigit]),
    if_pos (.inr hc)]

/-- A word is an item up to where the characters of words stop. -/
theorem lexeme_word {x : String} {c : Char} {pre : List Char} {token : Token}
    (hx : x.toList = c :: pre) (hc : Text.isLetter c = true) (hne : c ≠ 'λ')
    (hpre : pre.all isIdentChar = true) (hstop : Stops isIdentChar cs)
    (htoken : token = (Keyword.ofText? x).elim (.ident x) .keyword) :
    lexeme c ((pre ++ cs).map .char) = .ok ⟨some token, pre.length⟩ := by
  have hfirst : c ≠ '_' := by
    rintro rfl
    exact absurd hc (by decide)
  have htext : String.ofList (c :: pre) = x := by
    rw [← hx, String.ofList_toList]
  rw [lexeme_letter _ hc hne, word, run_append hpre hstop]
  simp only [htext]
  cases hk : Keyword.ofText? x with
  | none =>
    rw [hk] at htoken
    rw [htoken, if_neg (fun h => hfirst h.1)]
    rfl
  | some k =>
    rw [hk] at htoken
    rw [htoken]
    rfl

theorem Scans.word (h : Scans cs ws) (hstop : Stops isIdentChar cs) {x : String}
    (hx : IsWord x) : Scans (x.toList ++ cs) ((Keyword.ofText? x).elim (.ident x) .keyword :: ws) := by
  obtain ⟨c, pre, hx, hc, hne, hpre⟩ := hx
  rw [hx]
  exact h.token pre (lexeme_word hx hc hne hpre hstop rfl)

theorem Scans.keyword (h : Scans cs ws) (hstop : Stops isIdentChar cs) (k : Keyword) :
    Scans (k.text.toList ++ cs) (.keyword k :: ws) := by
  have hword := h.word hstop (isWord_text k)
  rwa [ofText?_text] at hword

theorem Scans.ident (h : Scans cs ws) (hstop : Stops isIdentChar cs) {x : String}
    (hx : IsName x) : Scans (x.toList ++ cs) (.ident x :: ws) := by
  rcases hx with rfl | ⟨hx, hfree⟩
  · refine h.token [] ?_
    have hrun : run isIdentChar (cs.map .char) = [] := run_eq_nil hstop
    change Scan.word '_' _ = _
    rw [Scan.word, List.nil_append, hrun]
    rfl
  · have hword := h.word hstop hx
    rwa [hfree] at hword

theorem lexeme_digit {c : Char} (rest : List Glyph) (hc : Text.isAsciiDigit c = true) :
    lexeme c rest = .ok ⟨some (.int (String.ofList (c :: run Text.isAsciiDigit rest))),
      (run Text.isAsciiDigit rest).length⟩ := by
  have hmem := Text.mem_of_isAsciiDigit hc
  simp only [List.mem_cons, List.not_mem_nil, or_false] at hmem
  rcases hmem with rfl | rfl | rfl | rfl | rfl | rfl | rfl | rfl | rfl | rfl <;> rfl

/-- A numeral is an item up to where the digits stop. -/
theorem Scans.int (h : Scans cs ws) (hstop : Stops isIdentChar cs) {digits : String}
    (hne : digits.toList ≠ []) (hdigits : digits.toList.all Text.isAsciiDigit = true) :
    Scans (digits.toList ++ cs) (.int digits :: ws) := by
  cases hcs : digits.toList with
  | nil => exact absurd hcs hne
  | cons c pre =>
    rw [hcs, List.all_cons, Bool.and_eq_true] at hdigits
    obtain ⟨hc, hpre⟩ := hdigits
    have hrun : run Text.isAsciiDigit ((pre ++ cs).map .char) = pre :=
      run_append hpre (hstop.mono isIdentChar_of_isAsciiDigit)
    have htext : String.ofList (c :: pre) = digits := by
      rw [← hcs, String.ofList_toList]
    refine h.token pre ?_
    rw [lexeme_digit _ hc, hrun, htext]

end Items

end Scan

end MiniML
