/-
  MiniML/Proofs/Source/Rendering.lean
  ===================================
  **Every surface term can be written** — the concrete syntax of a term, with each of
  its sub-terms in parentheses, and that reading it gives the term back.

  `render` is the text and `spelling` the tokens that stand in it.  The two halves of
  the reading are shown apart, each by induction on the term: the text scans into the
  tokens (`Surface.writes`), and the tokens spell the term (`Surface.spells`).
-/
import MiniML.Proofs.Source.Grammar
import MiniML.Proofs.Source.Scanning

namespace MiniML

namespace Term

open Scan

/-! ### Concrete syntax -/

/-- A text in parentheses. -/
def enclose (s : String) : String := "(" ++ s ++ ")"

/-- A reserved word and an operand, as in `head (l)`. -/
def unaryText (k : Keyword) (e : String) : String := k.text ++ " " ++ enclose e

/-- A reserved word and two operands, as in `cons (h) (t)`. -/
def binaryText (k : Keyword) (l r : String) : String :=
  k.text ++ " " ++ enclose l ++ " " ++ enclose r

/-- A conditional, as in `ifz (c) then (t) else (e)`. -/
def branchText (k : Keyword) (c t e : String) : String :=
  k.text ++ " " ++ enclose c ++ " " ++ Keyword.thenKw.text ++ " " ++ enclose t ++ " " ++
    Keyword.elseKw.text ++ " " ++ enclose e

/-- The concrete syntax of a term, every sub-term in parentheses.  A region has none; it
    is written as in reports. -/
def render : Term → String
  | .var x => x
  | .abs x b => "λ" ++ x ++ "." ++ enclose b.render
  | .app f a => enclose f.render ++ " " ++ enclose a.render
  | .letIn x v b => "let " ++ x ++ " = " ++ enclose v.render ++ " in " ++ enclose b.render
  | .int n => decimal n
  | .nil => "nil"
  | .cons h t => binaryText .consKw h.render t.render
  | .head l => unaryText .headKw l.render
  | .tail l => unaryText .tailKw l.render
  | .add l r => binaryText .addKw l.render r.render
  | .sub l r => binaryText .subKw l.render r.render
  | .ifZero c t e => branchText .ifzKw c.render t.render e.render
  | .ifEmpty c t e => branchText .ifeKw c.render t.render e.render
  | .fix f => unaryText .fixKw f.render
  | .unit => "()"
  | .mkRef e => unaryText .refKw e.render
  | .deref e => "!" ++ enclose e.render
  | .assign r v => ":= " ++ enclose r.render ++ " " ++ enclose v.render
  | .region i => "ρ" ++ decimal i

/-- Terms that can be written: all names are identifiers, no integer is negative, and
    there is no region. -/
def Surface : Term → Prop
  | .var x => IsName x
  | .abs x b => IsName x ∧ b.Surface
  | .app f a => f.Surface ∧ a.Surface
  | .letIn x v b => IsName x ∧ v.Surface ∧ b.Surface
  | .int n => 0 ≤ n.toInt
  | .nil | .unit => True
  | .cons h t => h.Surface ∧ t.Surface
  | .head l | .tail l => l.Surface
  | .add l r | .sub l r => l.Surface ∧ r.Surface
  | .ifZero c t e | .ifEmpty c t e => c.Surface ∧ t.Surface ∧ e.Surface
  | .fix f => f.Surface
  | .mkRef e | .deref e => e.Surface
  | .assign r v => r.Surface ∧ v.Surface
  | .region _ => False

/-! ### The tokens of the concrete syntax -/

/-- Tokens in parentheses. -/
def parens (ws : List Token) : List Token := .lparen :: (ws ++ [.rparen])

def branchSpelling (k : Keyword) (c t e : List Token) : List Token :=
  .keyword k :: (parens c ++ .keyword .thenKw :: (parens t ++ .keyword .elseKw :: parens e))

/-- The tokens of the concrete syntax. -/
def spelling : Term → List Token
  | .var x => [.ident x]
  | .abs x b => .lambda 'λ' :: .ident x :: .dot :: parens b.spelling
  | .app f a => parens f.spelling ++ parens a.spelling
  | .letIn x v b =>
    .keyword .letKw :: .ident x :: .equals ::
      (parens v.spelling ++ .keyword .inKw :: parens b.spelling)
  | .int n => [.int (decimal n)]
  | .nil => [.keyword .nilKw]
  | .cons h t => .keyword .consKw :: (parens h.spelling ++ parens t.spelling)
  | .head l => .keyword .headKw :: parens l.spelling
  | .tail l => .keyword .tailKw :: parens l.spelling
  | .add l r => .keyword .addKw :: (parens l.spelling ++ parens r.spelling)
  | .sub l r => .keyword .subKw :: (parens l.spelling ++ parens r.spelling)
  | .ifZero c t e => branchSpelling .ifzKw c.spelling t.spelling e.spelling
  | .ifEmpty c t e => branchSpelling .ifeKw c.spelling t.spelling e.spelling
  | .fix f => .keyword .fixKw :: parens f.spelling
  | .unit => [.unit]
  | .mkRef e => .keyword .refKw :: parens e.spelling
  | .deref e => .bang :: parens e.spelling
  | .assign r v => .assign :: (parens r.spelling ++ parens v.spelling)
  | .region _ => []

/-! ### Numerals -/

theorem decimal_of_nonneg {n : Int64} (h : 0 ≤ n.toInt) : decimal n = n.toInt.toNat.repr := by
  rw [decimal]
  cases hn : n.toInt with
  | ofNat m => rfl
  | negSucc m =>
    rw [hn] at h
    exact absurd h (by omega)

theorem digitsValue_repr (m : Nat) : Parse.digitsValue m.repr = m := by
  have hdigits := Nat.ofDigitChars_toDigits (b := 10) (n := m) (by decide) (by decide)
  rwa [← Nat.toList_repr] at hdigits

theorem all_isAsciiDigit_repr (m : Nat) : m.repr.toList.all Text.isAsciiDigit = true := by
  rw [List.all_eq_true]
  intro c h
  rw [Nat.toList_repr] at h
  have hc := Nat.isDigit_of_mem_toDigits (by decide) (by decide) h
  simp only [Char.isDigit, Bool.and_eq_true, decide_eq_true_eq, ge_iff_le,
    UInt32.le_iff_toNat_le] at hc
  exact Text.isAsciiDigit_iff.mpr hc

theorem repr_toList_ne_nil (m : Nat) : m.repr.toList ≠ [] := by
  rw [Nat.toList_repr]
  exact Nat.toDigits_ne_nil

/-! ### The text scans into the tokens -/

/-- The character at the front neither ends nor empties a parenthesis. -/
def Opens (cs : List Char) : Prop :=
  ∃ c cs', cs = c :: cs' ∧ isUnitBlank c = false ∧ c ≠ ')'

theorem Opens.append {cs : List Char} (h : Opens cs) (ds : List Char) : Opens (cs ++ ds) := by
  obtain ⟨c, cs', rfl, hc⟩ := h
  exact ⟨c, cs' ++ ds, rfl, hc⟩

/-- The text scans into these tokens wherever it stands, if the text behind it cannot
    continue a word, and it may stand in parentheses. -/
structure Writes (s : String) (ws : List Token) : Prop where
  opens : Opens s.toList
  scans : ∀ ⦃cs : List Char⦄ ⦃us : List Token⦄, Stops isIdentChar cs → Scans cs us →
    Scans (s.toList ++ cs) (ws ++ us)

theorem opens_of_isWord {x : String} (hx : IsWord x) : Opens x.toList := by
  obtain ⟨c, cs, hcs, hc, -, -⟩ := hx
  have hother : ∀ d, Text.isLetter d = false → c ≠ d := fun d => ne_of_class hc
  refine ⟨c, cs, hcs, ?_, hother ')' (by decide)⟩
  simp [isUnitBlank, hother ' ' (by decide), hother '\t' (by decide), hother '\n' (by decide),
    hother '\r' (by decide)]

theorem writes_name {x : String} (hx : IsName x) : Writes x [.ident x] where
  opens := by
    rcases hx with rfl | ⟨hx, -⟩
    · exact ⟨'_', [], rfl, by decide, by decide⟩
    · exact opens_of_isWord hx
  scans := by
    intro cs us hstop hcs
    exact hcs.ident hstop hx

theorem writes_int {n : Int64} (h : 0 ≤ n.toInt) : Writes (decimal n) [.int (decimal n)] := by
  rw [decimal_of_nonneg h]
  generalize n.toInt.toNat = m
  have hdigits := all_isAsciiDigit_repr m
  constructor
  · cases hm : m.repr.toList with
    | nil => exact absurd hm (repr_toList_ne_nil m)
    | cons c cs =>
      rw [hm, List.all_cons, Bool.and_eq_true] at hdigits
      have hc := Text.mem_of_isAsciiDigit hdigits.1
      simp only [List.mem_cons, List.not_mem_nil, or_false] at hc
      refine ⟨c, cs, rfl, ?_⟩
      rcases hc with rfl | rfl | rfl | rfl | rfl | rfl | rfl | rfl | rfl | rfl <;> decide
  · intro cs us hstop hcs
    exact hcs.int hstop (repr_toList_ne_nil m) hdigits

section Texts

variable {s s₁ s₂ s₃ : String} {ws ws₁ ws₂ ws₃ us : List Token} {cs : List Char}

theorem opens_enclose (s : String) : Opens (enclose s).toList := by
  rw [enclose, String.toList_append, String.toList_append]
  exact ⟨'(', s.toList ++ [')'], rfl, by decide, by decide⟩

/-- Behind a closing parenthesis anything may follow. -/
theorem Writes.enclose (h : Writes s ws) (hcs : Scans cs us) :
    Scans ((enclose s).toList ++ cs) (parens ws ++ us) := by
  have hinner : Scans (s.toList ++ ')' :: cs) (ws ++ .rparen :: us) :=
    h.scans (stops_cons (by decide) cs) hcs.rparen
  obtain ⟨c, cs', hopen, hblank, hclose⟩ := h.opens.append (')' :: cs)
  rw [hopen] at hinner
  have htext : (Term.enclose s).toList ++ cs = '(' :: c :: cs' := by
    rw [← hopen, Term.enclose]
    simp
  have htokens : parens ws ++ us = .lparen :: (ws ++ .rparen :: us) := by
    simp [parens]
  rw [htext, htokens]
  exact hinner.lparen hblank hclose

theorem stops_blank (cs : List Char) : Stops isIdentChar (' ' :: cs) :=
  stops_cons (by decide) cs

theorem scans_blank_keyword (k : Keyword) (hcs : Scans cs us) :
    Scans (' ' :: (k.text.toList ++ ' ' :: cs)) (.keyword k :: us) :=
  (hcs.blank.keyword (stops_blank cs) k).blank

theorem writes_unaryText (k : Keyword) (h : Writes s ws) :
    Writes (unaryText k s) (.keyword k :: parens ws) where
  opens := by
    rw [unaryText, String.toList_append, String.toList_append]
    exact ((opens_of_isWord (isWord_text k)).append _).append _
  scans := by
    intro cs us hstop hcs
    simp only [unaryText, String.toList_append, List.append_assoc, List.cons_append]
    exact (h.enclose hcs).blank.keyword (stops_blank _) k

theorem writes_binaryText (k : Keyword) (h₁ : Writes s₁ ws₁) (h₂ : Writes s₂ ws₂) :
    Writes (binaryText k s₁ s₂) (.keyword k :: (parens ws₁ ++ parens ws₂)) where
  opens := by
    simp only [binaryText, String.toList_append, List.append_assoc]
    exact (opens_of_isWord (isWord_text k)).append _
  scans := by
    intro cs us hstop hcs
    simp only [binaryText, String.toList_append, List.append_assoc, List.cons_append]
    exact (h₁.enclose (h₂.enclose hcs).blank).blank.keyword (stops_blank _) k

theorem writes_branchText (k : Keyword) (h₁ : Writes s₁ ws₁) (h₂ : Writes s₂ ws₂)
    (h₃ : Writes s₃ ws₃) : Writes (branchText k s₁ s₂ s₃) (branchSpelling k ws₁ ws₂ ws₃) where
  opens := by
    simp only [branchText, String.toList_append, List.append_assoc]
    exact (opens_of_isWord (isWord_text k)).append _
  scans := by
    intro cs us hstop hcs
    simp only [branchText, branchSpelling, String.toList_append, List.append_assoc,
      List.cons_append]
    have helse := scans_blank_keyword .elseKw (h₃.enclose hcs)
    have hthen := scans_blank_keyword .thenKw (h₂.enclose helse)
    exact (h₁.enclose hthen).blank.keyword (stops_blank _) k

end Texts

theorem writes_abs {x s : String} {ws : List Token} (hx : IsName x) (h : Writes s ws) :
    Writes ("λ" ++ x ++ "." ++ enclose s) (.lambda 'λ' :: .ident x :: .dot :: parens ws) where
  opens := by
    simp only [String.toList_append, List.append_assoc]
    exact ⟨'λ', _, rfl, by decide, by decide⟩
  scans := by
    intro cs us hstop hcs
    simp only [String.toList_append, List.append_assoc, List.cons_append]
    exact ((h.enclose hcs).dot.ident (stops_cons (by decide) _) hx).lambda

theorem writes_app {s₁ s₂ : String} {ws₁ ws₂ : List Token} (h₁ : Writes s₁ ws₁)
    (h₂ : Writes s₂ ws₂) :
    Writes (enclose s₁ ++ " " ++ enclose s₂) (parens ws₁ ++ parens ws₂) where
  opens := by
    simp only [String.toList_append, List.append_assoc]
    exact (opens_enclose s₁).append _
  scans := by
    intro cs us hstop hcs
    simp only [String.toList_append, List.append_assoc]
    exact h₁.enclose (h₂.enclose hcs).blank

/-- What stands between `let` and the value of a binding. -/
theorem scans_binder {x : String} (hx : IsName x) {cs : List Char} {us : List Token}
    (hcs : Scans cs us) :
    Scans (' ' :: (x.toList ++ (" = ".toList ++ cs))) (.ident x :: .equals :: us) :=
  (hcs.blank.equals.blank.ident (stops_blank _) hx).blank

theorem writes_letIn {x s₁ s₂ : String} {ws₁ ws₂ : List Token} (hx : IsName x)
    (h₁ : Writes s₁ ws₁) (h₂ : Writes s₂ ws₂) :
    Writes ("let " ++ x ++ " = " ++ enclose s₁ ++ " in " ++ enclose s₂)
      (.keyword .letKw :: .ident x :: .equals :: (parens ws₁ ++ .keyword .inKw :: parens ws₂)) where
  opens := by
    simp only [String.toList_append, List.append_assoc]
    exact ⟨'l', _, rfl, by decide, by decide⟩
  scans := by
    intro cs us hstop hcs
    simp only [String.toList_append, List.append_assoc, List.cons_append]
    have hin := scans_blank_keyword .inKw (h₂.enclose hcs)
    exact (scans_binder hx (h₁.enclose hin)).keyword (stops_blank _) .letKw

theorem writes_deref {s : String} {ws : List Token} (h : Writes s ws) :
    Writes ("!" ++ enclose s) (.bang :: parens ws) where
  opens := by
    rw [String.toList_append]
    exact ⟨'!', _, rfl, by decide, by decide⟩
  scans := by
    intro cs us hstop hcs
    rw [String.toList_append, List.append_assoc]
    exact (h.enclose hcs).bang

theorem writes_assign {s₁ s₂ : String} {ws₁ ws₂ : List Token} (h₁ : Writes s₁ ws₁)
    (h₂ : Writes s₂ ws₂) :
    Writes (":= " ++ enclose s₁ ++ " " ++ enclose s₂)
      (.assign :: (parens ws₁ ++ parens ws₂)) where
  opens := by
    simp only [String.toList_append, List.append_assoc]
    exact ⟨':', _, rfl, by decide, by decide⟩
  scans := by
    intro cs us hstop hcs
    simp only [String.toList_append, List.append_assoc, List.cons_append]
    exact (h₁.enclose (h₂.enclose hcs).blank).blank.assign

theorem writes_nil : Writes "nil" [.keyword .nilKw] where
  opens := opens_of_isWord (isWord_text .nilKw)
  scans := by
    intro cs us hstop hcs
    exact hcs.keyword hstop .nilKw

theorem writes_unit : Writes "()" [.unit] where
  opens := ⟨'(', [')'], rfl, by decide, by decide⟩
  scans := by
    intro cs us hstop hcs
    exact hcs.unit

/-- The concrete syntax of a surface term scans into its spelling. -/
theorem Surface.writes {t : Term} (h : t.Surface) : Writes t.render t.spelling := by
  induction t with
  | var x => exact writes_name h
  | abs x b ih => exact writes_abs h.1 (ih h.2)
  | app f a ihf iha => exact writes_app (ihf h.1) (iha h.2)
  | letIn x v b ihv ihb => exact writes_letIn h.1 (ihv h.2.1) (ihb h.2.2)
  | int n => exact writes_int h
  | nil => exact writes_nil
  | cons a b iha ihb => exact writes_binaryText .consKw (iha h.1) (ihb h.2)
  | head l ih => exact writes_unaryText .headKw (ih h)
  | tail l ih => exact writes_unaryText .tailKw (ih h)
  | add l r ihl ihr => exact writes_binaryText .addKw (ihl h.1) (ihr h.2)
  | sub l r ihl ihr => exact writes_binaryText .subKw (ihl h.1) (ihr h.2)
  | ifZero c t e ihc iht ihe =>
    exact writes_branchText .ifzKw (ihc h.1) (iht h.2.1) (ihe h.2.2)
  | ifEmpty c t e ihc iht ihe =>
    exact writes_branchText .ifeKw (ihc h.1) (iht h.2.1) (ihe h.2.2)
  | fix f ih => exact writes_unaryText .fixKw (ih h)
  | unit => exact writes_unit
  | mkRef e ih => exact writes_unaryText .refKw (ih h)
  | deref e ih => exact writes_deref (ih h)
  | assign r v ihr ihv => exact writes_assign (ihr h.1) (ihv h.2)
  | region i => exact h.elim

/-! ### The tokens spell the term -/

section Spelling

open Grammar

variable {next : Token}

theorem spellsAtom_int {n : Int64} (h : 0 ≤ n.toInt) :
    SpellsAtom next [.int (decimal n)] (.int n) := by
  have hvalue : Parse.digitsValue (decimal n) = n.toInt.toNat := by
    rw [decimal_of_nonneg h, digitsValue_repr]
  have hlt := n.toInt_lt
  have hint : SpellsAtom next [.int (decimal n)]
      (.int (Int64.ofNat (Parse.digitsValue (decimal n)))) := .int (by omega)
  rwa [hvalue, ← Int64.ofInt_eq_ofNat, Int.toNat_of_nonneg h, Int64.ofInt_toInt] at hint

/-- An atom is a term of its own. -/
theorem spellsTerm_of_atom {ws : List Token} {t : Term} (h : SpellsAtom next ws t)
    (hend : next ∈ closers) : SpellsTerm next ws t := by
  have hterm : SpellsTerm next (ws ++ []) (t.appMany []) := .application h .nil hend
  rwa [List.append_nil] at hterm

theorem spellsTerm_app {ws₁ ws₂ : List Token} {f a : Term}
    (hf : SpellsAtom (ahead ws₂ next) ws₁ f) (ha : SpellsAtom next ws₂ a)
    (hend : next ∈ closers) : SpellsTerm next (ws₁ ++ ws₂) (.app f a) := by
  have hargs : SpellsAtoms next (ws₂ ++ []) [a] := .cons ha .nil
  rw [List.append_nil] at hargs
  exact .application hf hargs hend

/-- The spelling derives the term, before every token that may stand behind a term. -/
def Spells (t : Term) : Prop := ∀ ⦃next : Token⦄, next ∈ closers → SpellsTerm next t.spelling t

/-- In parentheses the term is an atom, before any token. -/
theorem Spells.atom {t : Term} (h : t.Spells) : SpellsAtom next (parens t.spelling) t :=
  .enclosed (h (by decide))

theorem Spells.term {t : Term} (h : t.Spells) (hend : next ∈ closers) :
    SpellsTerm next (parens t.spelling) t :=
  spellsTerm_of_atom h.atom hend

theorem Surface.spells {t : Term} (h : t.Surface) : t.Spells := by
  -- a part that a keyword follows ends there; the last part ends where the whole term does
  have hin : Token.keyword .inKw ∈ closers := by decide
  have hthen : Token.keyword .thenKw ∈ closers := by decide
  have helse : Token.keyword .elseKw ∈ closers := by decide
  induction t with
  | var x =>
    intro next hend
    exact spellsTerm_of_atom (.ident x) hend
  | abs x b ih =>
    intro next hend
    exact spellsTerm_of_atom (.lambda 'λ' x ((ih h.2).term hend)) hend
  | app f a ihf iha =>
    intro next hend
    exact spellsTerm_app (ihf h.1).atom (iha h.2).atom hend
  | letIn x v b ihv ihb =>
    intro next hend
    exact spellsTerm_of_atom (.letIn x ((ihv h.2.1).term hin) ((ihb h.2.2).term hend)) hend
  | int n =>
    intro next hend
    exact spellsTerm_of_atom (spellsAtom_int h) hend
  | nil =>
    intro next hend
    exact spellsTerm_of_atom .nil hend
  | cons a b iha ihb =>
    intro next hend
    exact spellsTerm_of_atom (.binary .cons (iha h.1).atom (ihb h.2).atom) hend
  | head l ih =>
    intro next hend
    exact spellsTerm_of_atom (.unary .head (ih h).atom) hend
  | tail l ih =>
    intro next hend
    exact spellsTerm_of_atom (.unary .tail (ih h).atom) hend
  | add l r ihl ihr =>
    intro next hend
    exact spellsTerm_of_atom (.binary .add (ihl h.1).atom (ihr h.2).atom) hend
  | sub l r ihl ihr =>
    intro next hend
    exact spellsTerm_of_atom (.binary .sub (ihl h.1).atom (ihr h.2).atom) hend
  | ifZero c t e ihc iht ihe =>
    intro next hend
    exact spellsTerm_of_atom (.branch .ifz ((ihc h.1).term hthen) ((iht h.2.1).term helse)
      ((ihe h.2.2).term hend)) hend
  | ifEmpty c t e ihc iht ihe =>
    intro next hend
    exact spellsTerm_of_atom (.branch .ife ((ihc h.1).term hthen) ((iht h.2.1).term helse)
      ((ihe h.2.2).term hend)) hend
  | fix f ih =>
    intro next hend
    exact spellsTerm_of_atom (.unary .fix (ih h).atom) hend
  | unit =>
    intro next hend
    exact spellsTerm_of_atom .unit hend
  | mkRef e ih =>
    intro next hend
    exact spellsTerm_of_atom (.unary .ref (ih h).atom) hend
  | deref e ih =>
    intro next hend
    exact spellsTerm_of_atom (.unary .bang (ih h).atom) hend
  | assign r v ihr ihv =>
    intro next hend
    exact spellsTerm_of_atom (.binary .assign (ihr h.1).atom (ihv h.2).atom) hend
  | region i => exact h.elim

end Spelling

end Term

/-! ### Reading back -/

open Scan Grammar

theorem parseTerm_of_surface {t : Term} (h : t.Surface) :
    parseTerm (Glyph.ofString t.render) = .ok t := by
  obtain ⟨ts, hscan, htokens⟩ := h.writes.scans (stops_nil _) scans_nil 0
  rw [List.append_nil] at hscan htokens
  refine parseTerm_iff_spells.mpr ⟨ts, hscan, ?_⟩
  rw [htokens]
  exact h.spells (by decide)

/-- After `let`, the rest of a source is scanned as it stands, three bytes later. -/
theorem scan_let {cs : List Char} {us : List Token} (h : Scans (' ' :: cs) us) :
    ∃ ts, scan (('l' :: 'e' :: 't' :: ' ' :: cs).map .char) =
      .ok (⟨.keyword .letKw, 0⟩ :: ts) ∧ ts.map Lexeme.token = us := by
  obtain ⟨ts, hts, htokens⟩ := h 3
  have hitem : lexeme 'l' ((['e', 't'] ++ ' ' :: cs).map .char) =
      .ok ⟨some (.keyword .letKw), 2⟩ :=
    lexeme_word (x := "let") rfl (by decide) (by decide) (by decide)
      (stops_cons (by decide) cs) rfl
  refine ⟨ts, ?_, htokens⟩
  exact @scanFrom_token (.char 'l') [.char 'e', .char 't'] _ _ 0 ts hitem hts

theorem statement_of_binding {stop o o₁ o₂ : Nat} {x : String} {v : Term} {ts : List Lexeme}
    (h : Parse.readTerm stop ts = .ok (v, [])) :
    Parse.statement stop (⟨.keyword .letKw, o⟩ :: ⟨.ident x, o₁⟩ :: ⟨.equals, o₂⟩ :: ts) =
      .ok (⟨some x, v, o⟩, []) := by
  rw [Parse.statement]
  simp only [binding_of_part x h, ok_bind]
  rfl

theorem parseStatement_of_surface {t : Term} (h : t.Surface) {x : String} (hx : IsName x) :
    parseStatement (Glyph.ofString ("let " ++ x ++ " = " ++ t.render)) = .ok ⟨some x, t, 0⟩ := by
  have hbinder := Term.scans_binder hx (h.writes.scans (stops_nil _) scans_nil)
  rw [List.append_nil, List.append_nil] at hbinder
  obtain ⟨ts, hscan, htokens⟩ := scan_let hbinder
  obtain ⟨o₁, ts, rfl, hequals⟩ := map_token_eq_cons htokens
  obtain ⟨o₂, ts, rfl, hvalue⟩ := map_token_eq_cons hequals
  have htext : Glyph.ofString ("let " ++ x ++ " = " ++ t.render) =
      ('l' :: 'e' :: 't' :: ' ' :: (x.toList ++ (" = ".toList ++ t.render.toList))).map .char := by
    simp only [Glyph.ofString, String.toList_append, List.append_assoc]
    rfl
  have hread : ∀ stop, Parse.readTerm stop ts = .ok (t, []) := by
    intro stop
    refine readTerm_iff_derives.mpr ⟨ts, (List.append_nil ts).symm, ?_⟩
    rw [hvalue]
    exact h.spells (by decide)
  simp only [parseStatement, htext, hscan, statement_of_binding (hread _), ok_bind]
  rfl

/-- Every surface term can be written and is read back: its concrete syntax parses as the
    term itself, and behind `let x =` as the binding of `x` to it. -/
theorem surface_read_back {t : Term} (h : t.Surface) :
    parseTerm (Glyph.ofString t.render) = .ok t ∧
      ∀ x, IsName x →
        parseStatement (Glyph.ofString ("let " ++ x ++ " = " ++ t.render)) =
          .ok ⟨some x, t, 0⟩ :=
  ⟨parseTerm_of_surface h, fun _ hx => parseStatement_of_surface h hx⟩

/-- A loop that counts down in a reference cell. -/
def countDown : Term :=
  .fix (.abs "f" (.abs "n'" (.ifZero (.var "n'") .unit
    (.letIn "_" (.assign (.var "r") (.var "n'"))
      (.app (.var "f") (.sub (.var "n'") (.int 1)))))))

theorem surface_read_back_countDown :
    countDown.Surface ∧ IsName "go" ∧ countDown.render =
      "fix (λf.(λn'.(ifz (n') then (()) else (let _ = (:= (r) (n')) in ((f) (sub (n') (1)))))))" ∧
      parseTerm (Glyph.ofString countDown.render) = .ok countDown ∧
      parseStatement (Glyph.ofString ("let " ++ "go" ++ " = " ++ countDown.render)) =
        .ok ⟨some "go", countDown, 0⟩ := by
  have hf : IsName "f" := by decide
  have hn : IsName "n'" := by decide
  have hr : IsName "r" := by decide
  have hgo : IsName "go" := by decide
  have hone : 0 ≤ (1 : Int64).toInt := by decide
  have hsurface : countDown.Surface := ⟨hf, hn, hn, trivial, .inl rfl, ⟨hr, hn⟩, hf, hn, hone⟩
  have hread := surface_read_back hsurface
  exact ⟨hsurface, hgo, rfl, hread.1, hread.2 "go" hgo⟩

end MiniML
