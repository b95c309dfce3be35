/-
  MiniML/Proofs/Source/Items.lean
  ===============================
  **Items of a source** — everything that the scanner can find at the front of a source
  (`itemAt_of_lexeme`): white space, a comment, or a token that stands there letter by
  letter.  A source is scanned item by item, so that what holds of a scan follows by
  induction on the kinds of items in it (`scanned`).

  A byte that is no part of a character reads as U+FFFD.  This is no letter, digit, space
  or sign, so such bytes occur in comments only.
-/
import MiniML.Proofs.Source.Encoding
import MiniML.Proofs.Source.Scanning
import MiniML.Proofs.Source.Separation

namespace MiniML

/-! ### Tokens and their characters -/

/-- The tokens that a source can contain: names that can be written, numerals of at least
    one digit, and no end of input. -/
def Token.Lexical : Token → Prop
  | .ident x => Scan.IsName x
  | .int digits => digits.toList ≠ [] ∧ digits.toList.all Text.isAsciiDigit = true
  | .lambda sign => sign = '\\' ∨ sign = 'λ'
  | .keyword _ | .dot | .lparen | .rparen | .unit | .equals | .bang | .assign | .semi => True
  | .eof => False

/-- The token is written with these characters: those of its text, and the unit value with
    any blanks between its parentheses. -/
inductive Token.Written : Token → List Char → Prop where
  | unit {blanks : List Char} (h : blanks.all Scan.isUnitBlank = true) :
      Written .unit ('(' :: (blanks ++ [')']))
  | text {token : Token} (h : token.Lexical) (hunit : token ≠ .unit) :
      Written token token.text.toList

theorem Scan.IsName.toList_ne_nil {x : String} (h : Scan.IsName x) : x.toList ≠ [] := by
  rcases h with rfl | ⟨⟨c, cs, hx, -⟩, -⟩
  · decide
  · rw [hx]
    exact List.cons_ne_nil c cs

theorem Token.Written.ne_nil {token : Token} {cs : List Char} (h : token.Written cs) : cs ≠ [] := by
  cases h with
  | unit => exact List.cons_ne_nil _ _
  | text h =>
    cases token with
    | ident x => exact h.toList_ne_nil
    | int digits => exact h.1
    | keyword k => cases k <;> decide
    | lambda sign => rcases h with rfl | rfl <;> decide
    | dot | lparen | rparen | unit | equals | bang | assign | semi => decide
    | eof => exact h.elim

theorem Token.Written.ne_eof {token : Token} {cs : List Char} (h : token.Written cs) :
    token ≠ .eof := by
  rintro rfl
  cases h with
  | text h => exact h

namespace Scan

/-! ### Stray bytes -/

theorem toChar_eq_iff {g : Glyph} {c : Char} (hc : c ≠ Char.ofNat 0xFFFD) :
    g.toChar = c ↔ g = .char c := by
  cases g with
  | char d => simp [Glyph.toChar]
  | stray b =>
    simp only [Glyph.toChar, reduceCtorEq, iff_false]
    exact hc.symm

/-- The class has no place for a stray byte. -/
def Sound (p : Char → Bool) : Prop := p (Char.ofNat 0xFFFD) = false

instance (p : Char → Bool) : Decidable (Sound p) :=
  inferInstanceAs (Decidable (p (Char.ofNat 0xFFFD) = false))

theorem Sound.char {p : Char → Bool} (hp : Sound p) {g : Glyph} (h : p g.toChar = true) :
    g = .char g.toChar := by
  cases g with
  | char c => rfl
  | stray b => exact absurd (hp.symm.trans h) Bool.false_ne_true

theorem sound_isIdentChar : Sound isIdentChar := by
  decide +kernel

theorem sound_isAsciiDigit : Sound Text.isAsciiDigit := by
  decide

theorem sound_isUnitBlank : Sound isUnitBlank := by
  decide

theorem sound_isLetter : Sound Text.isLetter := by
  decide +kernel

theorem sound_isSpace : Sound Text.isSpace := by
  decide

/-- A run is the text of the glyphs in front of the first one outside the class. -/
theorem run_split (p : Char → Bool) (gs : List Glyph) :
    ∃ body rest, gs = body ++ rest ∧ run p gs = body.map Glyph.toChar ∧
      (∀ g ∈ body, p g.toChar = true) ∧ ∀ g ∈ rest.head?, p g.toChar = false := by
  refine ⟨gs.takeWhile (p ∘ Glyph.toChar), gs.dropWhile (p ∘ Glyph.toChar),
    List.takeWhile_append_dropWhile.symm, List.takeWhile_map, ?_, ?_⟩
  · intro g hg
    exact List.mem_takeWhile_imp (p := p ∘ Glyph.toChar) hg
  · intro g hg
    have hne := List.head?_dropWhile_not (p ∘ Glyph.toChar) gs
    rw [hg] at hne
    simpa using hne

/-- The glyphs of a run are characters. -/
theorem run_chars {p : Char → Bool} (hp : Sound p) (gs : List Glyph) :
    ∃ rest, gs = (run p gs).map .char ++ rest ∧ (run p gs).all p = true := by
  obtain ⟨body, rest, hgs, hrun, hbody, -⟩ := run_split p gs
  have hchars : (body.map Glyph.toChar).map Glyph.char = body := by
    rw [List.map_map]
    exact (List.map_congr_left fun g hg => (hp.char (hbody g hg)).symm).trans (List.map_id body)
  refine ⟨rest, ?_, ?_⟩
  · rw [hrun, hchars]
    exact hgs
  · rw [hrun, List.all_map, List.all_eq_true]
    exact hbody

/-! ### Items -/

/-- What can stand at the front of a source. -/
inductive ItemAt : Glyph → List Glyph → Item → Prop where
  | space {g : Glyph} {rest : List Glyph} (h : Text.isSpace g.toChar = true) :
      ItemAt g rest ⟨none, 0⟩
  | comment {body rest : List Glyph} (hbody : .char '\n' ∉ body)
      (hrest : rest = [] ∨ ∃ more, rest = .char '\n' :: more) :
      ItemAt (.char '#') (body ++ rest) ⟨none, body.length⟩
  | token {token : Token} {c : Char} {pre : List Char} {rest : List Glyph}
      (h : token.Written (c :: pre)) :
      ItemAt (.char c) (pre.map .char ++ rest) ⟨some token, pre.length⟩

/-- A token of one character. -/
theorem ItemAt.sign {token : Token} {c : Char} {rest : List Glyph} (h : token.Written [c]) :
    ItemAt (.char c) rest ⟨some token, 0⟩ :=
  .token h

theorem itemAt_comment (rest : List Glyph) :
    ItemAt (.char '#') rest ⟨none, (run (· != '\n') rest).length⟩ := by
  obtain ⟨body, more, rfl, hrun, hbody, hmore⟩ := run_split (· != '\n') rest
  rw [hrun, List.length_map]
  refine .comment ?_ ?_
  · intro hmem
    exact absurd (hbody _ hmem) (by decide)
  · cases more with
    | nil => exact .inl rfl
    | cons g more =>
      have hg := hmore g rfl
      rw [bne_eq_false_iff_eq, toChar_eq_iff (by decide)] at hg
      exact .inr ⟨more, by rw [hg]⟩

theorem itemAt_parenthesis (rest : List Glyph) : ItemAt (.char '(') rest (parenthesis rest) := by
  obtain ⟨more, hrest, hblanks⟩ := run_chars sound_isUnitBlank rest
  generalize hrun : run isUnitBlank rest = blanks at hrest hblanks
  subst hrest
  simp only [parenthesis, hrun]
  rw [← List.length_map Glyph.char, List.drop_left]
  split
  · rename_i hclose
    obtain ⟨more', rfl⟩ := List.head?_eq_some_iff.mp hclose
    have hunit : ItemAt (.char '(') ((blanks ++ [')']).map .char ++ more')
      ⟨some .unit, (blanks ++ [')']).length⟩ := .token (.unit hblanks)
    simpa using hunit
  · exact .sign (.text trivial (by decide))

theorem itemAt_int {c : Char} (hc : Text.isAsciiDigit c = true) (rest : List Glyph) :
    ItemAt (.char c) rest ⟨some (.int (String.ofList (c :: run Text.isAsciiDigit rest))),
      (run Text.isAsciiDigit rest).length⟩ := by
  obtain ⟨more, hrest, hdigits⟩ := run_chars sound_isAsciiDigit rest
  generalize run Text.isAsciiDigit rest = digits at hrest hdigits ⊢
  subst hrest
  refine .token ?_
  have hlexical : (Token.int (String.ofList (c :: digits))).Lexical := by
    simp only [Token.Lexical, String.toList_ofList]
    exact ⟨List.cons_ne_nil _ _, by rw [List.all_cons, hc, hdigits]; rfl⟩
  have hwritten := Token.Written.text hlexical (by simp)
  rwa [Token.text, String.toList_ofList] at hwritten

/-- A word is a reserved one, or a name. -/
theorem itemAt_word {c : Char} (hne : c ≠ 'λ') (hc : c = '_' ∨ Text.isLetter c = true)
    {rest : List Glyph} {item : Item} (h : word c rest = .ok item) :
    ItemAt (.char c) rest item := by
  obtain ⟨more, hrest, htail⟩ := run_chars sound_isIdentChar rest
  simp only [word] at h
  generalize hrun : run isIdentChar rest = tail at hrest htail h
  subst hrest
  have hword : ∀ token : Token, token.Lexical → token ≠ .unit →
      token.text = String.ofList (c :: tail) →
      ItemAt (.char c) (tail.map .char ++ more) ⟨some token, tail.length⟩ := by
    intro token hlexical hunit htext
    refine .token ?_
    have hwritten := Token.Written.text hlexical hunit
    rwa [htext, String.toList_ofList] at hwritten
  split at h
  · rename_i k hk
    cases h
    exact hword (.keyword k) trivial (by simp) (Keyword.text_of_ofText? hk)
  · rename_i hk
    split at h
    · cases h
    · rename_i hlone
      cases h
      refine hword (.ident _) ?_ (by simp) rfl
      by_cases hfirst : c = '_'
      · have hnil : tail = [] := by
          by_contra hne
          exact hlone ⟨hfirst, hne⟩
        exact .inl (by rw [hfirst, hnil])
      · exact .inr ⟨⟨c, tail, String.toList_ofList, hc.resolve_left hfirst, hne, htail⟩, hk⟩

/-- A character at the front of a source is that character, unless it is a stray byte. -/
theorem itemAt_char {c : Char} {rest : List Glyph} {item : Item} (h : lexeme c rest = .ok item) :
    ItemAt (.char c) rest item := by
  have hsign : ∀ {token : Token}, token.Lexical → token ≠ .unit → token.text.toList = [c] →
      ItemAt (.char c) rest ⟨some token, 0⟩ := by
    intro token hlexical hunit htext
    refine .sign ?_
    rw [← htext]
    exact .text hlexical hunit
  -- one case for each character that `lexeme` tells apart
  revert h
  fun_cases lexeme c rest with
  | case1 hspace =>
    intro h
    cases h
    exact .space hspace
  | case2 _ hc =>
    intro h
    cases h
    subst hc
    exact itemAt_comment rest
  | case3 _ _ hc =>
    intro h
    cases h
    exact hsign hc (by simp) (by simp [Token.text])
  | case4 | case6 | case7 | case8 =>
    intro h
    cases h
    subst c
    exact hsign trivial (by simp) (by simp [Token.text])
  | case5 =>
    intro h
    cases h
    subst c
    exact itemAt_parenthesis rest
  | case9 =>
    intro h
    cases h
    subst c
    obtain ⟨more, rfl⟩ := List.head?_eq_some_iff.mp ‹_›
    exact @ItemAt.token .assign ':' ['='] more (.text trivial (by simp))
  | case11 =>
    intro h
    cases h
    subst c
    obtain ⟨more, rfl⟩ := List.head?_eq_some_iff.mp ‹_›
    exact @ItemAt.token .semi ';' [';'] more (.text trivial (by simp))
  | case10 | case12 | case15 =>
    intro h
    cases h
  | case13 =>
    intro h
    cases h
    exact itemAt_int ‹_› rest
  | case14 _ _ hlambda _ _ _ _ _ _ _ _ hword =>
    exact itemAt_word (fun hc => hlambda (.inr hc)) hword

/-- A stray byte begins no item. -/
theorem lexeme_stray (rest : List Glyph) :
    lexeme (Char.ofNat 0xFFFD) rest = .error (.unexpectedChar (Char.ofNat 0xFFFD)) := by
  have hspace : Text.isSpace (Char.ofNat 0xFFFD) = false := sound_isSpace
  have hdigit : Text.isAsciiDigit (Char.ofNat 0xFFFD) = false := sound_isAsciiDigit
  have hletter : Text.isLetter (Char.ofNat 0xFFFD) = false := sound_isLetter
  rw [lexeme, if_neg (by simp [hspace]), if_neg (by decide), if_neg (by decide),
    if_neg (by decide), if_neg (by decide), if_neg (by decide), if_neg (by decide),
    if_neg (by decide), if_neg (by decide), if_neg (by decide), if_neg (by simp [hdigit]),
    if_neg (by simp [hletter])]

theorem itemAt_of_lexeme {g : Glyph} {rest : List Glyph} {item : Item}
    (h : lexeme g.toChar rest = .ok item) : ItemAt g rest item := by
  cases g with
  | char c => exact itemAt_char h
  | stray b =>
    rw [Glyph.toChar, lexeme_stray] at h
    cases h

/-! ### Scanning item by item -/

/-- What a scan that begins at an offset gives, item by item. -/
inductive Scanned : Nat → List Glyph → Except ParseError (List Lexeme) → Prop where
  | nil {o : Nat} : Scanned o [] (.ok [])
  | space {o : Nat} {g : Glyph} {rest : List Glyph} {r : Except ParseError (List Lexeme)}
      (h : Text.isSpace g.toChar = true) (hrest : Scanned (o + g.width) rest r) :
      Scanned o (g :: rest) r
  | lastComment {o : Nat} {body : List Glyph} (hbody : .char '\n' ∉ body) :
      Scanned o (.char '#' :: body) (.ok [])
  | comment {o : Nat} {body rest : List Glyph} {r : Except ParseError (List Lexeme)}
      (hbody : .char '\n' ∉ body) (hrest : Scanned (o + 1 + Glyph.widths body + 1) rest r) :
      Scanned o (.char '#' :: (body ++ .char '\n' :: rest)) r
  | token {o : Nat} {c : Char} {pre : List Char} {rest : List Glyph} {token : Token}
      {r : Except ParseError (List Lexeme)} (h : token.Written (c :: pre))
      (hrest : Scanned (o + c.utf8Size + Glyph.widths (pre.map .char)) rest r) :
      Scanned o (.char c :: (pre.map .char ++ rest)) (r.map (⟨token, o⟩ :: ·))
  | fault {o : Nat} {g : Glyph} {rest : List Glyph} {fault : ParseFault}
      (h : lexeme g.toChar rest = .error fault) : Scanned o (g :: rest) (.error ⟨o, fault⟩)

theorem scanFrom_lexeme {g : Glyph} {pre gs : List Glyph} {token : Token} {offset : Nat}
    (hitem : lexeme g.toChar (pre ++ gs) = .ok ⟨some token, pre.length⟩) :
    scanFrom 0 offset (g :: (pre ++ gs)) =
      (scanFrom 0 (offset + g.width + Glyph.widths pre) gs).map (⟨token, offset⟩ :: ·) := by
  rw [scanFrom, hitem]
  simp only [scanFrom_length]
  cases scanFrom 0 (offset + g.width + Glyph.widths pre) gs <;> rfl

theorem scanned (o : Nat) (gs : List Glyph) : Scanned o gs (scanFrom 0 o gs) := by
  induction hn : gs.length using Nat.strong_induction_on generalizing o gs with
  | _ n ih =>
    subst hn
    cases gs with
    | nil => exact .nil
    | cons g rest =>
      cases hitem : lexeme g.toChar rest with
      | error fault =>
        rw [scanFrom, hitem]
        exact .fault hitem
      | ok item =>
        cases itemAt_of_lexeme hitem with
        | space h =>
          have hscan := scanFrom_space [] o hitem
          rw [List.nil_append] at hscan
          rw [hscan]
          exact .space h (ih rest.length (Nat.lt_succ_self _) _ rest rfl)
        | @comment body rest hbody hrest =>
          rw [scanFrom_space body o hitem]
          rcases hrest with rfl | ⟨more, rfl⟩
          · rw [List.append_nil]
            exact .lastComment hbody
          · -- The line break behind the comment is an item of its own.
            have hbreak : lexeme '\n' more = .ok ⟨none, 0⟩ := rfl
            have hscan := scanFrom_space [] (o + 1 + Glyph.widths body) (g := .char '\n') hbreak
            rw [List.nil_append] at hscan
            rw [show (Glyph.char '#').width = 1 from rfl, hscan]
            refine .comment hbody (ih more.length ?_ _ more rfl)
            simp only [List.length_cons, List.length_append]
            omega
        | @token token c pre rest h =>
          rw [← List.length_map Glyph.char] at hitem
          rw [scanFrom_lexeme hitem]
          refine .token h (ih rest.length ?_ _ rest rfl)
          simp only [List.length_cons, List.length_append]
          omega

end Scan

end MiniML
