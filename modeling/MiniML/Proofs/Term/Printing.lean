/-
  MiniML/Proofs/Term/Printing.lean
  ================================
  **Printed terms can be told apart** — two terms with the same printed form are equal,
  as long as their names are identifiers that do not look like regions, or names that
  were issued for binders.

  The printed form is no input language, so it gets a reader of its own
  (`Printed.read`), and printing is undone by it wherever the text stands
  (`Legible.reads_text`).  One word is enough to know the form: behind an opening
  parenthesis the reader takes the reserved words for names, and only then looks at what
  the first name was.  That works for `fun` too, which is not reserved: `(fun x` goes on
  as an application or as an abstraction, and what follows tells which.
-/
import MiniML.Proofs.Name.Fresh
import MiniML.Proofs.Source.Rendering
import MiniML.Term.Binding
import MiniML.Term.Print

namespace MiniML

/-! ### Reading printed terms -/

namespace Printed

/-- Takes characters from the front of a text, and gives a term and the characters left. -/
abbrev Reader := List Char → Option (Term × List Char)

/-- Passes over a text. -/
def skip (s : String) (cs : List Char) : Option (List Char) :=
  if s.toList.isPrefixOf cs then some (cs.drop s.toList.length) else none

/-- The characters that words are made of. -/
def isWordChar (c : Char) : Bool := c != ' ' && c != '(' && c != ')' && c != '!'

/-- The characters that legible names begin with. -/
def isNameStart (c : Char) : Bool := (c == '_' || Text.isLetter c) && c != 'ρ'

/-- The number that a numeral writes. -/
def number (cs : List Char) : Int64 := .ofInt ((String.ofList cs).toInt?.getD 0)

/-- What a word stands for. -/
def word (cs : List Char) : Term :=
  match cs with
  | [] => .var ""
  | c :: ds =>
    if c = 'ρ' then .region (number ds)
    else if c = '-' ∨ Text.isAsciiDigit c then .int (number cs)
    else if String.ofList cs = "nil" then .nil
    else .var (String.ofList cs)

section Forms

variable (part : Reader)

/-- Reads the last operand of a form. -/
def last (build : Term → Term) : Reader := fun cs => do
  let (a, cs) ← part cs
  let cs ← skip ")" cs
  return (build a, cs)

/-- Reads the operand of a form with one. -/
def unary (build : Term → Term) : Reader := fun cs => do
  let cs ← skip " " cs
  last part build cs

/-- Reads the operands of a form with two. -/
def binary (build : Term → Term → Term) : Reader := fun cs => do
  let cs ← skip " " cs
  let (a, cs) ← part cs
  let cs ← skip " " cs
  last part (build a) cs

/-- Reads the condition and the branches of a conditional. -/
def branch (build : Term → Term → Term → Term) : Reader := fun cs => do
  let cs ← skip " " cs
  let (c, cs) ← part cs
  let cs ← skip " then " cs
  let (t, cs) ← part cs
  let cs ← skip " else " cs
  last part (build c t) cs

/-- Reads a name, its value and the term in which it is bound. -/
def binding : Reader := fun cs => do
  let cs ← skip " " cs
  let (x, cs) ← part cs
  let cs ← skip " = " cs
  let (v, cs) ← part cs
  let cs ← skip " in " cs
  last part (.letIn x.text v) cs

/-- Reads what `f` is applied to; behind a name that follows `fun` the term goes on as an
    abstraction. -/
def applied (f : Term) : Reader := fun cs => do
  let cs ← skip " " cs
  let (a, cs) ← part cs
  match skip " -> " cs with
  | some cs => last part (.abs a.text) cs
  | none =>
    let cs ← skip ")" cs
    return (.app f a, cs)

/-- Reads what follows the left operand `l`. -/
def operation (l : Term) : Reader := fun cs =>
  match skip " + " cs with
  | some cs => last part (.add l) cs
  | none =>
    match skip " - " cs with
    | some cs => last part (.sub l) cs
    | none =>
      match skip " := " cs with
      | some cs => last part (.assign l) cs
      | none => applied part l cs

/-- Reads the rest of a text in parentheses, after what stands first in it. -/
def rest (first : Term) : Reader :=
  match first with
  | .var w =>
    match Keyword.ofText? w with
    | some .letKw => binding part
    | some .consKw => binary part .cons
    | some .headKw => unary part .head
    | some .tailKw => unary part .tail
    | some .fixKw => unary part .fix
    | some .refKw => unary part .mkRef
    | some .ifzKw => branch part .ifZero
    | some .ifeKw => branch part .ifEmpty
    | _ => operation part first
  | _ => operation part first

end Forms

/-- Reads a printed term.  The recursion is on a bound of its depth. -/
def read : Nat → Reader
  | 0, _ => none
  | _ + 1, [] => none
  | n + 1, c :: cs =>
    if c = '!' then (read n cs).map fun (a, cs) => (.deref a, cs)
    else if c = '(' then
      if cs.head? = some ')' then some (.unit, cs.tail)
      else (read n cs).bind fun (first, cs) => rest (read n) first cs
    else some (word ((c :: cs).takeWhile isWordChar), (c :: cs).dropWhile isWordChar)

/-- The reader gets the term from the text, whatever follows that is no part of a word. -/
def Reads (p : Reader) (s : String) (t : Term) : Prop :=
  ∀ ⦃cs : List Char⦄, Scan.Stops isWordChar cs → p (s.toList ++ cs) = some (t, cs)

theorem skip_append (s : String) (cs : List Char) : skip s (s.toList ++ cs) = some cs := by
  rw [skip, if_pos (List.isPrefixOf_iff_prefix.mpr (List.prefix_append _ _)), List.drop_left]

theorem stops_append {s : String} {c : Char} {ds : List Char} (h : s.toList = c :: ds)
    (hc : isWordChar c = false) (cs : List Char) : Scan.Stops isWordChar (s.toList ++ cs) := by
  rw [h]
  exact Scan.stops_cons hc _

section Forms

variable {part : Reader} {s s₁ s₂ s₃ x : String} {a b c : Term}

theorem Reads.skip_blank (h : Reads part s a) (text : String) {ds : List Char}
    (htext : text.toList = ' ' :: ds) (cs : List Char) :
    part (s.toList ++ (text.toList ++ cs)) = some (a, text.toList ++ cs) :=
  h (stops_append htext (by decide) cs)

theorem Reads.last (h : Reads part s a) (build : Term → Term) (cs : List Char) :
    Printed.last part build (s.toList ++ (")".toList ++ cs)) = some (build a, cs) := by
  rw [Printed.last, h (stops_append (s := ")") rfl (by decide) cs)]
  simp only [Option.bind_eq_bind, Option.bind_some, skip_append]
  rfl

theorem Reads.unary (h : Reads part s a) (build : Term → Term) (cs : List Char) :
    Printed.unary part build (" ".toList ++ (s.toList ++ (")".toList ++ cs))) =
      some (build a, cs) := by
  rw [Printed.unary, skip_append]
  exact h.last build cs

theorem Reads.binary (h₁ : Reads part s₁ a) (h₂ : Reads part s₂ b) (build : Term → Term → Term)
    (cs : List Char) :
    Printed.binary part build
        (" ".toList ++ (s₁.toList ++ (" ".toList ++ (s₂.toList ++ (")".toList ++ cs))))) =
      some (build a b, cs) := by
  rw [Printed.binary, skip_append]
  simp only [Option.bind_eq_bind, Option.bind_some, h₁.skip_blank " " rfl, skip_append]
  exact h₂.last (build a) cs

theorem Reads.branch (h₁ : Reads part s₁ a) (h₂ : Reads part s₂ b) (h₃ : Reads part s₃ c)
    (build : Term → Term → Term → Term) (cs : List Char) :
    Printed.branch part build (" ".toList ++ (s₁.toList ++ (" then ".toList ++
        (s₂.toList ++ (" else ".toList ++ (s₃.toList ++ (")".toList ++ cs))))))) =
      some (build a b c, cs) := by
  rw [Printed.branch, skip_append]
  simp only [Option.bind_eq_bind, Option.bind_some, h₁.skip_blank " then " rfl,
    h₂.skip_blank " else " rfl, skip_append]
  exact h₃.last (build a b) cs

theorem Reads.binding (hx : Reads part x (.var x)) (h₁ : Reads part s₁ a) (h₂ : Reads part s₂ b)
    (cs : List Char) :
    Printed.binding part (" ".toList ++ (x.toList ++ (" = ".toList ++
        (s₁.toList ++ (" in ".toList ++ (s₂.toList ++ (")".toList ++ cs))))))) =
      some (.letIn x a b, cs) := by
  rw [Printed.binding, skip_append]
  simp only [Option.bind_eq_bind, Option.bind_some, hx.skip_blank " = " rfl,
    h₁.skip_blank " in " rfl, skip_append]
  exact h₂.last (.letIn x a) cs

theorem Reads.app (h : Reads part s a) (f : Term) (cs : List Char) :
    applied part f (" ".toList ++ (s.toList ++ (")".toList ++ cs))) = some (.app f a, cs) := by
  have harrow : skip " -> " (")".toList ++ cs) = none := rfl
  rw [applied, skip_append]
  simp only [Option.bind_eq_bind, Option.bind_some,
    h (stops_append (s := ")") rfl (by decide) cs), harrow, skip_append]
  rfl

theorem Reads.abs (hx : Reads part x (.var x)) (h : Reads part s a) (f : Term) (cs : List Char) :
    applied part f (" ".toList ++ (x.toList ++ (" -> ".toList ++
        (s.toList ++ (")".toList ++ cs))))) = some (.abs x a, cs) := by
  rw [applied, skip_append]
  simp only [Option.bind_eq_bind, Option.bind_some, hx.skip_blank " -> " rfl, skip_append]
  exact h.last (.abs x) cs

theorem Reads.add (h : Reads part s a) (l : Term) (cs : List Char) :
    operation part l (" + ".toList ++ (s.toList ++ (")".toList ++ cs))) =
      some (.add l a, cs) := by
  rw [operation, skip_append]
  exact h.last (.add l) cs

theorem Reads.sub (h : Reads part s a) (l : Term) (cs : List Char) :
    operation part l (" - ".toList ++ (s.toList ++ (")".toList ++ cs))) =
      some (.sub l a, cs) := by
  have hplus (ds : List Char) : skip " + " (" - ".toList ++ ds) = none := rfl
  rw [operation, hplus, skip_append]
  exact h.last (.sub l) cs

theorem Reads.assign (h : Reads part s a) (l : Term) (cs : List Char) :
    operation part l (" := ".toList ++ (s.toList ++ (")".toList ++ cs))) =
      some (.assign l a, cs) := by
  have hplus (ds : List Char) : skip " + " (" := ".toList ++ ds) = none := rfl
  have hminus (ds : List Char) : skip " - " (" := ".toList ++ ds) = none := rfl
  rw [operation, hplus, hminus, skip_append]
  exact h.last (.assign l) cs

end Forms

/-! ### Where an operand begins -/

/-- What begins like this is neither an operator nor a closing parenthesis; a minus sign
    belongs to a numeral. -/
inductive Begins : List Char → Prop where
  | char {c : Char} (h : c ∉ [')', '+', '-', ':']) (cs : List Char) : Begins (c :: cs)
  | minus {c : Char} (h : c ≠ ' ') (cs : List Char) : Begins ('-' :: c :: cs)

theorem Begins.append {cs : List Char} (h : Begins cs) (ds : List Char) : Begins (cs ++ ds) := by
  cases h with
  | char h cs => exact .char h (cs ++ ds)
  | minus h cs => exact .minus h (cs ++ ds)

theorem Begins.head?_ne {cs : List Char} (h : Begins cs) : cs.head? ≠ some ')' := by
  cases h with
  | char h cs =>
    rintro heq
    obtain rfl := Option.some.inj heq
    exact h (by decide)
  | minus => simp

/-- In front of an operand there is no operator. -/
theorem Begins.operation {cs : List Char} (h : Begins cs) (part : Reader) (l : Term) :
    operation part l (" ".toList ++ cs) = applied part l (" ".toList ++ cs) := by
  have hskip : skip " + " (' ' :: cs) = none ∧ skip " - " (' ' :: cs) = none ∧
      skip " := " (' ' :: cs) = none := by
    cases h with
    | char h cs =>
      simp only [List.mem_cons, List.not_mem_nil, or_false, not_or] at h
      obtain ⟨-, hplus, hminus, hcolon⟩ := h
      simp [skip, Ne.symm hplus, Ne.symm hminus, Ne.symm hcolon]
    | minus h cs => simp [skip, Ne.symm h]
  change Printed.operation part l (' ' :: cs) = _
  rw [Printed.operation, hskip.1, hskip.2.1, hskip.2.2]
  rfl

/-! ### Words -/

/-- The text is a single word, which stands for the term. -/
structure Atom (s : String) (t : Term) : Prop where
  begins : Begins s.toList
  chars : s.toList.all isWordChar = true
  word : word s.toList = t

theorem Atom.reads {s : String} {t : Term} (h : Atom s t) {n : Nat} (hn : 0 < n) :
    Reads (read n) s t := by
  intro cs hcs
  obtain ⟨n, rfl⟩ := Nat.exists_eq_succ_of_ne_zero hn.ne'
  have htake := Scan.takeWhile_append h.chars hcs
  have hdrop := Scan.dropWhile_append h.chars hcs
  have hchars := h.chars
  have hword := h.word
  cases hs : s.toList with
  | nil => exact absurd h.begins (by rw [hs]; rintro ⟨⟩)
  | cons c ds =>
    rw [hs] at htake hdrop hchars hword
    rw [List.all_cons, Bool.and_eq_true] at hchars
    have hbang : c ≠ '!' := Scan.ne_of_class hchars.1 (by decide)
    have hparen : c ≠ '(' := Scan.ne_of_class hchars.1 (by decide)
    rw [List.cons_append] at htake hdrop ⊢
    rw [read, if_neg hbang, if_neg hparen, htake, hdrop, hword]

theorem isWordChar_of_isIdentChar {c : Char} (h : Scan.isIdentChar c = true) :
    isWordChar c = true := by
  have hother : ∀ d, Scan.isIdentChar d = false → c ≠ d := fun d => Scan.ne_of_class h
  simp [isWordChar, hother ' ' (by decide), hother '(' (by decide), hother ')' (by decide),
    hother '!' (by decide)]

theorem all_isWordChar_of_all_isIdentChar {cs : List Char} (h : cs.all Scan.isIdentChar = true) :
    cs.all isWordChar = true := by
  rw [List.all_eq_true] at h ⊢
  exact fun c hc => isWordChar_of_isIdentChar (h c hc)

/-! ### Numerals -/

theorem isIdentChar_of_mem_repr {m : Nat} {c : Char} (h : c ∈ m.repr.toList) :
    Scan.isIdentChar c = true :=
  Scan.isIdentChar_of_isAsciiDigit c (List.all_eq_true.mp (Term.all_isAsciiDigit_repr m) c h)

/-- A numeral is a run of digits, with a minus sign in front of it or without one. -/
theorem decimal_eq (n : Int64) :
    ∃ m : Nat, decimal n = m.repr ∨ decimal n = "-" ++ m.repr := by
  rw [decimal]
  cases n.toInt with
  | ofNat m => exact ⟨m, .inl rfl⟩
  | negSucc m => exact ⟨m + 1, .inr rfl⟩

theorem number_decimal (n : Int64) : number (decimal n).toList = n := by
  have hread : (decimal n).toInt? = some n.toInt := Int.toInt?_repr n.toInt
  rw [number, String.ofList_toList, hread, Option.getD_some, Int64.ofInt_toInt]

theorem all_isWordChar_decimal (n : Int64) : (decimal n).toList.all isWordChar = true := by
  have hdigits (m : Nat) : m.repr.toList.all isWordChar = true :=
    List.all_eq_true.mpr fun c hc => isWordChar_of_isIdentChar (isIdentChar_of_mem_repr hc)
  obtain ⟨m, hm | hm⟩ := decimal_eq n
  · rw [hm]
    exact hdigits m
  · rw [hm, String.toList_append, List.all_append, hdigits m]
    rfl

theorem atom_decimal (n : Int64) : Atom (decimal n) (.int n) := by
  have hnumber := number_decimal n
  obtain ⟨m, hm⟩ := decimal_eq n
  cases hd : m.repr.toList with
  | nil => exact absurd hd (Term.repr_toList_ne_nil m)
  | cons d ds =>
    have hdigit : Text.isAsciiDigit d = true :=
      List.all_eq_true.mp (Term.all_isAsciiDigit_repr m) d (by rw [hd]; exact List.mem_cons_self)
    have hother : ∀ c, Text.isAsciiDigit c = false → d ≠ c := fun c => Scan.ne_of_class hdigit
    rcases hm with hm | hm
    · have htext : (decimal n).toList = d :: ds := by rw [hm, hd]
      refine ⟨?_, all_isWordChar_decimal n, ?_⟩
      · rw [htext]
        refine .char ?_ ds
        simp [hother ')' (by decide), hother '+' (by decide), hother '-' (by decide),
          hother ':' (by decide)]
      · rw [htext] at hnumber ⊢
        simp [word, hother 'ρ' (by decide), hdigit, hnumber]
    · have htext : (decimal n).toList = '-' :: d :: ds := by
        rw [hm, String.toList_append, hd]
        rfl
      refine ⟨?_, all_isWordChar_decimal n, ?_⟩
      · rw [htext]
        exact .minus (hother ' ' (by decide)) ds
      · rw [htext] at hnumber ⊢
        simp [word, hnumber]

theorem atom_region (i : Int64) : Atom ("ρ" ++ decimal i) (.region i) := by
  have htext : ("ρ" ++ decimal i).toList = 'ρ' :: (decimal i).toList := String.toList_append
  refine ⟨?_, ?_, ?_⟩
  · rw [htext]
    exact .char (by decide) _
  · rw [htext, List.all_cons, all_isWordChar_decimal]
    rfl
  · rw [htext]
    exact congrArg Term.region (number_decimal i)

theorem atom_nil : Atom "nil" .nil := ⟨.char (by decide) _, rfl, rfl⟩

/-- A reserved word other than `nil` is read like a name, and so is `fun`. -/
theorem atom_keyword {k : Keyword} (hk : k ≠ .nilKw) : Atom k.text (.var k.text) := by
  cases k with
  | nilKw => exact absurd rfl hk
  | _ => exact ⟨.char (by decide) _, rfl, rfl⟩

theorem atom_fun : Atom "fun" (.var "fun") := ⟨.char (by decide) _, rfl, rfl⟩

/-- Behind an opening parenthesis the reader goes on with what stands there first. -/
theorem read_paren {n : Nat} {s : String} {first : Term} (hbegins : Begins s.toList)
    (h : Reads (read n) s first) (cs : List Char) :
    read (n + 1) ("(".toList ++ (s.toList ++ (" ".toList ++ cs))) =
      rest (read n) first (" ".toList ++ cs) := by
  change read (n + 1) ('(' :: (s.toList ++ (" ".toList ++ cs))) = _
  rw [read, if_neg (by decide), if_pos rfl, if_neg (hbegins.append _).head?_ne,
    h.skip_blank " " rfl, Option.bind_some]

theorem read_keyword {n : Nat} (hn : 0 < n) {k : Keyword} (hk : k ≠ .nilKw) (cs : List Char) :
    read (n + 1) ("(".toList ++ (k.text.toList ++ (" ".toList ++ cs))) =
      rest (read n) (.var k.text) (" ".toList ++ cs) :=
  read_paren (atom_keyword hk).begins ((atom_keyword hk).reads hn) cs

end Printed

/-! ### Legible terms -/

/-- The name is an identifier that does not begin like a region, or evaluation (`_v`) or a
    session (`_s`) may give it to a binder. -/
def LegibleName (x : String) : Prop :=
  Scan.IsName x ∧ x.toList.head? ≠ some 'ρ' ∨
    ∃ s : NameSupply, (s.stem = "_v" ∨ s.stem = "_s") ∧ x = s.fresh.1

/-- All names in the term are legible, those of its binders too. -/
def Term.Legible : Term → Prop
  | .var x => LegibleName x
  | .abs x b => LegibleName x ∧ b.Legible
  | .app f a => f.Legible ∧ a.Legible
  | .letIn x v b => LegibleName x ∧ v.Legible ∧ b.Legible
  | .int _ | .nil | .unit | .region _ => True
  | .cons h t => h.Legible ∧ t.Legible
  | .head l | .tail l => l.Legible
  | .add l r | .sub l r => l.Legible ∧ r.Legible
  | .ifZero c t e | .ifEmpty c t e => c.Legible ∧ t.Legible ∧ e.Legible
  | .fix f => f.Legible
  | .mkRef e | .deref e => e.Legible
  | .assign r v => r.Legible ∧ v.Legible

theorem toList_fresh {s : NameSupply} (hs : s.stem = "_v" ∨ s.stem = "_s") :
    ∃ cs, s.fresh.1.toList = '_' :: cs ∧ cs.all Printed.isWordChar = true := by
  obtain ⟨d, hd, hstem⟩ : ∃ d, Printed.isWordChar d = true ∧ s.stem.toList = ['_', d] := by
    rcases hs with hs | hs
    · exact ⟨'v', by decide, by rw [hs]; rfl⟩
    · exact ⟨'s', by decide, by rw [hs]; rfl⟩
  refine ⟨d :: (decimal s.next).toList, ?_, ?_⟩
  · change (s.stem ++ decimal s.next).toList = _
    rw [String.toList_append, hstem]
    rfl
  · rw [List.all_cons, hd, Printed.all_isWordChar_decimal]
    rfl

theorem LegibleName.toList_eq {x : String} (h : LegibleName x) :
    ∃ c cs, x.toList = c :: cs ∧ Printed.isNameStart c = true ∧
      cs.all Printed.isWordChar = true := by
  rcases h with ⟨rfl | ⟨⟨c, cs, hx, hc, -, hcs⟩, -⟩, hrho⟩ | ⟨s, hs, rfl⟩
  · exact ⟨'_', [], rfl, by decide, rfl⟩
  · have hne : c ≠ 'ρ' := by
      rintro rfl
      exact hrho (by rw [hx]; rfl)
    exact ⟨c, cs, hx, by simp [Printed.isNameStart, hc, hne],
      Printed.all_isWordChar_of_all_isIdentChar hcs⟩
  · obtain ⟨cs, hx, hcs⟩ := toList_fresh hs
    exact ⟨'_', cs, hx, by decide, hcs⟩

theorem LegibleName.unreserved {x : String} (h : LegibleName x) : Keyword.ofText? x = none := by
  rcases h with ⟨rfl | ⟨-, hfree⟩, -⟩ | ⟨s, hs, rfl⟩
  · decide
  · exact hfree
  · obtain ⟨cs, hx, -⟩ := toList_fresh hs
    cases hk : Keyword.ofText? s.fresh.1 with
    | none => rfl
    | some k =>
      rw [← Keyword.text_of_ofText? hk] at hx
      cases k <;> cases hx

namespace Printed

theorem isAsciiDigit_eq_false_of_isNameStart {c : Char} (h : isNameStart c = true) :
    Text.isAsciiDigit c = false := by
  rw [← Bool.not_eq_true]
  intro hdigit
  have hunderscore : c ≠ '_' := Scan.ne_of_class hdigit (by decide)
  simp [isNameStart, hunderscore, Text.isLetter_eq_false_of_isAsciiDigit hdigit] at h

theorem atom_var {x : String} (h : LegibleName x) : Atom x (.var x) := by
  obtain ⟨c, cs, hx, hc, hcs⟩ := h.toList_eq
  have hother : ∀ d, isNameStart d = false → c ≠ d := fun d => Scan.ne_of_class hc
  have hminus := hother '-' (by decide)
  refine ⟨?_, ?_, ?_⟩
  · rw [hx]
    refine .char ?_ cs
    simp [hother ')' (by decide), hother '+' (by decide), hminus, hother ':' (by decide)]
  · rw [hx, List.all_cons, hcs, Bool.and_true]
    simp [isWordChar, hother ' ' (by decide), hother '(' (by decide), hother ')' (by decide),
      hother '!' (by decide)]
  · have htext : String.ofList (c :: cs) = x := by rw [← hx, String.ofList_toList]
    have hdigit := isAsciiDigit_eq_false_of_isNameStart hc
    have hnil : x ≠ "nil" := by
      rintro rfl
      exact absurd h.unreserved (by decide)
    rw [hx, word, if_neg (hother 'ρ' (by decide)), if_neg (by simp [hminus, hdigit]), htext,
      if_neg hnil]

end Printed

namespace Term

/-- The printed form of a term begins like an operand. -/
theorem Legible.begins {t : Term} (h : t.Legible) : Printed.Begins t.text.toList := by
  cases t with
  | var x => exact (Printed.atom_var h).begins
  | int n => exact (Printed.atom_decimal n).begins
  | nil => exact Printed.atom_nil.begins
  | region i => exact (Printed.atom_region i).begins
  | _ =>
    simp only [text, String.toList_append, List.append_assoc]
    exact .char (by decide) _

/-- No legible term is taken for a reserved word in front of its operands. -/
theorem Legible.rest_eq {t : Term} (h : t.Legible) (part : Printed.Reader) :
    Printed.rest part t = Printed.operation part t := by
  cases t with
  | var x => rw [Printed.rest, LegibleName.unreserved h]
  | _ => rfl

/-- Behind a legible left operand the reader goes on with an operator or an argument. -/
theorem Legible.read_left {l : Term} (h : l.Legible) {n : Nat}
    (hread : Printed.Reads (Printed.read n) l.text l) (cs : List Char) :
    Printed.read (n + 1) ("(".toList ++ (l.text.toList ++ (" ".toList ++ cs))) =
      Printed.operation (Printed.read n) l (" ".toList ++ cs) := by
  rw [Printed.read_paren h.begins hread, h.rest_eq]

open Printed in
/-- Printing is undone by the reader, wherever the printed form stands. -/
theorem Legible.reads_text {n : Nat} {t : Term} (h : t.Legible) (hn : t.size ≤ n) :
    Reads (read n) t.text t := by
  induction n generalizing t with
  | zero => exact absurd t.size_pos (by omega)
  | succ n ih =>
    intro cs hcs
    have hpos : 0 < n + 1 := Nat.succ_pos n
    cases t with
    -- single words, the unit value and the sign without parentheses
    | var x => exact (atom_var h).reads hpos hcs
    | int m => exact (atom_decimal m).reads hpos hcs
    | nil => exact atom_nil.reads hpos hcs
    | region i => exact (atom_region i).reads hpos hcs
    | unit => rfl
    | deref e =>
      simp only [size, text, String.toList_append, List.append_assoc] at hn ⊢
      change (read n (e.text.toList ++ cs)).map _ = _
      rw [ih (t := e) h (by omega) hcs]
      rfl
    -- a word first: what it is says how the term goes on
    | abs x b =>
      simp only [size, text, String.toList_append, List.append_assoc] at hn ⊢
      have hword : 0 < n := b.size_pos.trans_le (by omega)
      have hx := (atom_var h.1).reads hword
      refine (read_paren atom_fun.begins (atom_fun.reads hword) _).trans ?_
      refine (((atom_var h.1).begins.append _).operation _ _).trans ?_
      exact hx.abs (ih h.2 (by omega)) (.var "fun") cs
    | letIn x v b =>
      simp only [size, text, String.toList_append, List.append_assoc] at hn ⊢
      have hword : 0 < n := v.size_pos.trans_le (by omega)
      have hx := (atom_var h.1).reads hword
      exact (read_keyword hword (k := .letKw) (by decide) _).trans
        (hx.binding (ih h.2.1 (by omega)) (ih h.2.2 (by omega)) cs)
    | cons a b =>
      simp only [size, text, String.toList_append, List.append_assoc] at hn ⊢
      have hword : 0 < n := a.size_pos.trans_le (by omega)
      exact (read_keyword hword (k := .consKw) (by decide) _).trans
        ((ih h.1 (by omega)).binary (ih h.2 (by omega)) .cons cs)
    | head e =>
      simp only [size, text, String.toList_append, List.append_assoc] at hn ⊢
      have hword : 0 < n := e.size_pos.trans_le (by omega)
      exact (read_keyword hword (k := .headKw) (by decide) _).trans
        ((ih (t := e) h (by omega)).unary .head cs)
    | tail e =>
      simp only [size, text, String.toList_append, List.append_assoc] at hn ⊢
      have hword : 0 < n := e.size_pos.trans_le (by omega)
      exact (read_keyword hword (k := .tailKw) (by decide) _).trans
        ((ih (t := e) h (by omega)).unary .tail cs)
    | fix e =>
      simp only [size, text, String.toList_append, List.append_assoc] at hn ⊢
      have hword : 0 < n := e.size_pos.trans_le (by omega)
      exact (read_keyword hword (k := .fixKw) (by decide) _).trans
        ((ih (t := e) h (by omega)).unary .fix cs)
    | mkRef e =>
      simp only [size, text, String.toList_append, List.append_assoc] at hn ⊢
      have hword : 0 < n := e.size_pos.trans_le (by omega)
      exact (read_keyword hword (k := .refKw) (by decide) _).trans
        ((ih (t := e) h (by omega)).unary .mkRef cs)
    | ifZero c t e =>
      simp only [size, text, String.toList_append, List.append_assoc] at hn ⊢
      have hword : 0 < n := c.size_pos.trans_le (by omega)
      exact (read_keyword hword (k := .ifzKw) (by decide) _).trans
        ((ih h.1 (by omega)).branch (ih h.2.1 (by omega)) (ih h.2.2 (by omega)) .ifZero cs)
    | ifEmpty c t e =>
      simp only [size, text, String.toList_append, List.append_assoc] at hn ⊢
      have hword : 0 < n := c.size_pos.trans_le (by omega)
      exact (read_keyword hword (k := .ifeKw) (by decide) _).trans
        ((ih h.1 (by omega)).branch (ih h.2.1 (by omega)) (ih h.2.2 (by omega)) .ifEmpty cs)
    -- an operand first: an operator or an argument follows
    | add l r =>
      simp only [size, text, String.toList_append, List.append_assoc] at hn ⊢
      exact (h.1.read_left (ih h.1 (by omega)) _).trans ((ih h.2 (by omega)).add l cs)
    | sub l r =>
      simp only [size, text, String.toList_append, List.append_assoc] at hn ⊢
      exact (h.1.read_left (ih h.1 (by omega)) _).trans ((ih h.2 (by omega)).sub l cs)
    | assign l r =>
      simp only [size, text, String.toList_append, List.append_assoc] at hn ⊢
      exact (h.1.read_left (ih h.1 (by omega)) _).trans ((ih h.2 (by omega)).assign l cs)
    | app f a =>
      simp only [size, text, String.toList_append, List.append_assoc] at hn ⊢
      refine (h.1.read_left (ih h.1 (by omega)) _).trans ?_
      refine ((h.2.begins.append _).operation _ f).trans ?_
      exact (ih h.2 (by omega)).app f cs

/-- **Printing is unambiguous**: legible terms with one printed form are equal, whatever
    integers and regions they hold. -/
theorem text_injective {a b : Term} (ha : a.Legible) (hb : b.Legible) (h : a.text = b.text) :
    a = b := by
  have hreadA := ha.reads_text (Nat.le_max_left a.size b.size) (Scan.stops_nil _)
  have hreadB := hb.reads_text (Nat.le_max_right a.size b.size) (Scan.stops_nil _)
  rw [h, hreadB] at hreadA
  exact congrArg Prod.fst (Option.some.inj hreadA).symm

/-- The variable `fun` in front of its argument, a binder named by a supply whose count is
    below zero, and a negative number behind a minus sign. -/
theorem text_injective_converted :
    let a := ((abs "x" (sub (app (var "fun") (var "x")) (int (-5)))).alphaConvert ∅ ⟨"_v", -1⟩).1
    let b := abs "_v-1" (sub (app (var "fun") (var "_v-1")) (int (-5)))
    a.Legible ∧ b.Legible ∧ a.text = b.text ∧
      a.text = "(fun _v-1 -> ((fun _v-1) - -5))" ∧ a = b := by
  intro a b
  have hfun : LegibleName "fun" := .inl ⟨by decide, by decide⟩
  have hx : LegibleName "_v-1" := .inr ⟨⟨"_v", -1⟩, .inl rfl, by decide⟩
  have hb : b.Legible := ⟨hx, ⟨hfun, hx⟩, trivial⟩
  have ha : a.Legible := hb
  have htext : a.text = b.text := by decide
  exact ⟨ha, hb, htext, by decide, text_injective ha hb htext⟩

/-- A variable whose name begins like a region is printed as one. -/
example : (var "ρ5").text = (region 5).text := by decide

end Term

end MiniML
