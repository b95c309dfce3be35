/-
  MiniML/Proofs/Source/Cursor.lean
  ================================
  **The parser stays in front of the end of the input** — it never passes over the token
  for the end, never looks at what stands behind it, and complains about a token that is
  there (`Confined`).  Together with what is known of scanning, every error points into
  the source: at a token, at its end, or at the first character that does not scan.

  Two runs of the parser are compared, one on tokens and one on the same tokens with the
  end of the input and anything else behind them.  They have different bounds of their
  depth; it follows that a bound that is large enough makes no difference.  The loop over
  the statements of a program stops at the end by itself, so of this loop it is shown where
  it comes to (`ComesTo`).
-/
import MiniML.Proofs.Source.Program
import MiniML.Proofs.Source.Tiling

namespace MiniML

namespace Parse

open Grammar

/-! ### Two runs -/

/-- The offset of one of the tokens, or of the end of the input. -/
def Marks (stop : Nat) (ts : List Lexeme) (o : Nat) : Prop :=
  o ∈ (withEnd stop ts).map Lexeme.offset

/-- The first run is on some of the tokens `ts`, the second one on the same tokens with
    `tail` behind them.  They give the same result and leave the same tokens, all of them
    from `ts`; an error of theirs stands at a token of `ts` or at the end. -/
structure Confined {α : Type} (stop : Nat) (tail ts : List Lexeme)
    (r r' : Except ParseError (α × List Lexeme)) : Prop where
  same : r' = r.map fun p => (p.1, p.2 ++ tail)
  rest : ∀ a rest, r = .ok (a, rest) → rest <:+ ts
  error : ∀ e, r = .error e → Marks stop ts e.offset

section Runs

variable {α β : Type} {stop : Nat} {tail ts rest : List Lexeme}

theorem front_append (hend : front stop tail = ⟨.eof, stop⟩) :
    front stop (ts ++ tail) = front stop ts := by
  cases ts with
  | nil => exact hend
  | cons l ts => rfl

/-- What stands behind the end is nothing, or begins with the end itself. -/
theorem eq_nil_or_of_front (hend : front stop tail = ⟨.eof, stop⟩) :
    tail = [] ∨ ∃ more, tail = ⟨.eof, stop⟩ :: more := by
  cases tail with
  | nil => exact .inl rfl
  | cons l more =>
    obtain rfl : l = ⟨.eof, stop⟩ := hend
    exact .inr ⟨more, rfl⟩

theorem Marks.mono {o : Nat} (h : Marks stop rest o) (hrest : rest <:+ ts) : Marks stop ts o := by
  obtain ⟨l, hl, rfl⟩ := List.mem_map.mp h
  refine List.mem_map_of_mem ?_
  rcases List.mem_append.mp hl with hl | hl
  · exact List.mem_append_left _ (hrest.subset hl)
  · exact List.mem_append_right _ hl

theorem marks_front (stop : Nat) (ts : List Lexeme) : Marks stop ts (front stop ts).offset := by
  cases ts <;> exact List.mem_cons_self

theorem Confined.ok (a : α) (hrest : rest <:+ ts) :
    Confined stop tail ts (.ok (a, rest)) (.ok (a, rest ++ tail)) where
  same := rfl
  rest := by
    intro b rest' h
    cases h
    exact hrest
  error := by
    intro e h
    cases h

theorem Confined.refuse (hend : front stop tail = ⟨.eof, stop⟩) (wanted : Expected)
    (hrest : rest <:+ ts) :
    Confined (α := α) stop tail ts (refuse stop wanted rest) (refuse stop wanted (rest ++ tail)) where
  same := by
    rw [Parse.refuse, front_append hend]
    rfl
  rest := by
    intro a rest' h
    cases h
  error := by
    intro e h
    cases h
    exact (marks_front stop rest).mono hrest

theorem Confined.mono {r r' : Except ParseError (α × List Lexeme)}
    (h : Confined stop tail rest r r') (hrest : rest <:+ ts) : Confined stop tail ts r r' where
  same := h.same
  rest := fun a rest' hr => (h.rest a rest' hr).trans hrest
  error := fun e hr => (h.error e hr).mono hrest

/-- Two runs that go on from the same place are compared from there. -/
theorem Confined.bind {r r' : Except ParseError (α × List Lexeme)}
    {k k' : α × List Lexeme → Except ParseError (β × List Lexeme)}
    (h : Confined stop tail ts r r')
    (hk : ∀ a rest, r = .ok (a, rest) → rest <:+ ts →
      Confined stop tail ts (k (a, rest)) (k' (a, rest ++ tail))) :
    Confined stop tail ts (r >>= k) (r' >>= k') := by
  obtain ⟨rfl, hrest, herror⟩ := h
  cases r with
  | error e =>
    refine ⟨rfl, ?_, ?_⟩
    · intro a rest h
      cases h
    · intro e' he
      cases he
      exact herror e rfl
  | ok p =>
    obtain ⟨a, rest⟩ := p
    exact hk a rest rfl (hrest a rest rfl)

theorem confined_ident (hend : front stop tail = ⟨.eof, stop⟩) (hrest : rest <:+ ts) :
    Confined stop tail ts (ident stop rest) (ident stop (rest ++ tail)) := by
  have hother : ∀ ts' : List Lexeme, (∀ x, (front stop ts').token ≠ .ident x) →
      ident stop ts' = Parse.refuse stop .identifier ts' := by
    intro ts' hts'
    rw [ident.eq_def]
    split
    · exact absurd rfl (hts' _)
    · rfl
  by_cases hx : ∃ x, (front stop rest).token = .ident x
  · obtain ⟨x, hx⟩ := hx
    cases rest with
    | nil => cases hx
    | cons l rest =>
      obtain ⟨token, o⟩ := l
      obtain rfl : token = .ident x := hx
      exact .ok x ((List.suffix_cons _ _).trans hrest)
  · rw [not_exists] at hx
    rw [hother rest hx, hother (rest ++ tail) (by rwa [front_append hend])]
    exact .refuse hend .identifier hrest

theorem confined_expect (hend : front stop tail = ⟨.eof, stop⟩) {token : Token}
    (htoken : token ≠ .eof) (wanted : Expected) (hrest : rest <:+ ts)
    {k k' : List Lexeme → Except ParseError (α × List Lexeme)}
    (hk : ∀ rest', rest' <:+ ts → Confined stop tail ts (k rest') (k' (rest' ++ tail))) :
    Confined stop tail ts (expect stop token wanted rest >>= k)
      (expect stop token wanted (rest ++ tail) >>= k') := by
  have hother : ∀ ts' : List Lexeme, (front stop ts').token ≠ token →
      expect stop token wanted ts' = Parse.refuse stop wanted ts' := by
    intro ts' hts'
    cases ts' with
    | nil => rfl
    | cons l ts' => exact if_neg hts'
  by_cases hfront : (front stop rest).token = token
  · cases rest with
    | nil => exact absurd hfront.symm htoken
    | cons l rest =>
      have htake : ∀ ts', expect stop token wanted (l :: ts') = .ok ts' := fun _ => if_pos hfront
      rw [List.cons_append, htake, htake]
      exact hk rest ((List.suffix_cons _ _).trans hrest)
  · rw [hother rest hfront, hother (rest ++ tail) (by rwa [front_append hend])]
    exact Confined.refuse hend wanted hrest

/-- A numeral that is too large is an error at the numeral itself. -/
theorem confined_integer (o : Nat) (digits : String) (rest : List Lexeme) :
    Confined stop tail (⟨.int digits, o⟩ :: rest) (integer o digits rest)
      (integer o digits (rest ++ tail)) := by
  rw [integer, integer]
  cases literal? digits with
  | some n => exact .ok (Term.int n) (List.suffix_cons _ rest)
  | none =>
    refine ⟨rfl, ?_, ?_⟩
    · intro a rest h
      cases h
    · intro e h
      cases h
      exact List.mem_cons_self

end Runs

/-! ### Forms -/

/-- The readers are confined on every list of at most `n` tokens. -/
def Confines (stop : Nat) (tail : List Lexeme) (n : Nat) (p p' : Reader) : Prop :=
  ∀ ts, ts.length ≤ n → Confined stop tail ts (p ts) (p' (ts ++ tail))

section Forms

variable {stop n : Nat} {tail ts rest : List Lexeme} {p p' : Reader}

theorem Confines.at (hp : Confines stop tail n p p') (hts : ts.length ≤ n) (hrest : rest <:+ ts) :
    Confined stop tail ts (p rest) (p' (rest ++ tail)) :=
  (hp rest (hrest.length_le.trans hts)).mono hrest

theorem confines_unary (hp : Confines stop tail n p p') (build : Term → Term) :
    Confines stop tail n (unary p build) (unary p' build) := by
  intro ts hts
  exact (hp ts hts).bind fun a rest _ hrest => .ok (build a) hrest

theorem confines_binary (hp : Confines stop tail n p p') (build : Term → Term → Term) :
    Confines stop tail n (binary p build) (binary p' build) := by
  intro ts hts
  refine (hp ts hts).bind fun a rest₁ _ h₁ => ?_
  exact (hp.at hts h₁).bind fun b rest₂ _ h₂ => .ok (build a b) h₂

theorem confines_enclosed (hend : front stop tail = ⟨.eof, stop⟩)
    (hp : Confines stop tail n p p') : Confines stop tail n (enclosed stop p) (enclosed stop p') := by
  intro ts hts
  refine (hp ts hts).bind fun t rest _ h₁ => ?_
  exact confined_expect hend (by decide) .rparen h₁ fun rest' h₂ => .ok t h₂

theorem confines_abstraction (hend : front stop tail = ⟨.eof, stop⟩)
    (hp : Confines stop tail n p p') :
    Confines stop tail n (abstraction stop p) (abstraction stop p') := by
  intro ts hts
  refine (confined_ident hend List.suffix_rfl).bind fun x rest₁ _ h₁ => ?_
  refine confined_expect hend (by decide) .dot h₁ fun rest₂ h₂ => ?_
  exact (hp.at hts h₂).bind fun b rest₃ _ h₃ => .ok (Term.abs x b) h₃

theorem confines_branch (hend : front stop tail = ⟨.eof, stop⟩)
    (hp : Confines stop tail n p p') (build : Term → Term → Term → Term) :
    Confines stop tail n (branch stop p build) (branch stop p' build) := by
  intro ts hts
  refine (hp ts hts).bind fun c rest₁ _ h₁ => ?_
  refine confined_expect hend (by decide) (.keyword .thenKw) h₁ fun rest₂ h₂ => ?_
  refine (hp.at hts h₂).bind fun t rest₃ _ h₃ => ?_
  refine confined_expect hend (by decide) (.keyword .elseKw) h₃ fun rest₄ h₄ => ?_
  exact (hp.at hts h₄).bind fun e rest₅ _ h₅ => .ok (build c t e) h₅

/-- What follows a binding goes on behind its value. -/
theorem binding_bind {α : Type} (k : String × Term × List Lexeme → Except ParseError α) :
    binding stop p ts >>= k = ident stop ts >>= fun x =>
      expect stop .equals .equals x.2 >>= fun rest => p rest >>= fun v => k (x.1, v.1, v.2) := by
  rw [binding]
  cases ident stop ts with
  | error e => rfl
  | ok x =>
    simp only [ok_bind]
    cases expect stop .equals .equals x.2 with
    | error e => rfl
    | ok rest =>
      simp only [ok_bind]
      cases p rest <;> rfl

theorem confined_binding {α : Type} (hend : front stop tail = ⟨.eof, stop⟩)
    (hp : Confines stop tail n p p') (hts : ts.length ≤ n) (hrest : rest <:+ ts)
    {k k' : String × Term × List Lexeme → Except ParseError (α × List Lexeme)}
    (hk : ∀ x v rest', rest' <:+ ts → Confined stop tail ts (k (x, v, rest')) (k' (x, v, rest' ++ tail))) :
    Confined stop tail ts (binding stop p rest >>= k) (binding stop p' (rest ++ tail) >>= k') := by
  rw [binding_bind, binding_bind]
  refine (confined_ident hend hrest).bind fun x rest₁ _ h₁ => ?_
  refine confined_expect hend (by decide) .equals h₁ fun rest₂ h₂ => ?_
  exact (hp.at hts h₂).bind fun v rest₃ _ h₃ => hk x v rest₃ h₃

theorem confines_letTerm (hend : front stop tail = ⟨.eof, stop⟩)
    (hp : Confines stop tail n p p') : Confines stop tail n (letTerm stop p) (letTerm stop p') := by
  intro ts hts
  refine confined_binding hend hp hts List.suffix_rfl fun x v rest₁ h₁ => ?_
  refine confined_expect hend (by decide) (.keyword .inKw) h₁ fun rest₂ h₂ => ?_
  exact (hp.at hts h₂).bind fun b rest₃ _ h₃ => .ok (Term.letIn x v b) h₃

end Forms

/-! ### Terms -/

section Terms

variable {stop fuel fuel' : Nat} {tail ts rest : List Lexeme}

/-- Whether the runs of terms are confined with these bounds of the depth, on all lists of
    tokens for which the bounds leave room. -/
def TermConfined (stop : Nat) (tail : List Lexeme) (fuel fuel' : Nat) : Prop :=
  ∀ ts : List Lexeme, 2 * ts.length + 2 ≤ fuel → 2 * ts.length + 2 ≤ fuel' →
    Confined stop tail ts (term stop fuel ts) (term stop fuel' (ts ++ tail))

/-- The same for the arguments of an application. -/
def ApplicationConfined (stop : Nat) (tail : List Lexeme) (fuel fuel' : Nat) : Prop :=
  ∀ (f : Term) (ts : List Lexeme), 2 * ts.length + 2 ≤ fuel → 2 * ts.length + 2 ≤ fuel' →
    Confined stop tail ts (application stop fuel f ts) (application stop fuel' f (ts ++ tail))

/-- The same for atoms, which begin with a token and need less. -/
def AtomConfined (stop : Nat) (tail : List Lexeme) (fuel fuel' : Nat) : Prop :=
  ∀ ts : List Lexeme, 2 * ts.length + 1 ≤ fuel → 2 * ts.length + 1 ≤ fuel' →
    Confined stop tail ts (atom stop fuel ts) (atom stop fuel' (ts ++ tail))

/-- An atom takes at least one token. -/
theorem length_lt_of_atom {t : Term} (h : atom stop fuel ts = .ok (t, rest)) :
    rest.length < ts.length := by
  obtain ⟨w, rfl, hw⟩ := (gives_grammar stop fuel).2.2 h
  have hpos := hw.length_pos
  rw [List.length_map] at hpos
  rw [List.length_append]
  omega

theorem atom_end (hend : front stop tail = ⟨.eof, stop⟩) :
    atom stop (fuel + 1) tail = refuse stop .term tail := by
  rcases eq_nil_or_of_front hend with rfl | ⟨more, rfl⟩ <;> rfl

theorem confines_of_term (h : TermConfined stop tail fuel fuel') {n : Nat}
    (hfuel : 2 * n + 2 ≤ fuel) (hfuel' : 2 * n + 2 ≤ fuel') :
    Confines stop tail n (term stop fuel) (term stop fuel') :=
  fun ts _ => h ts (by omega) (by omega)

theorem confines_of_atom (h : AtomConfined stop tail fuel fuel') {n : Nat}
    (hfuel : 2 * n + 1 ≤ fuel) (hfuel' : 2 * n + 1 ≤ fuel') :
    Confines stop tail n (atom stop fuel) (atom stop fuel') :=
  fun ts _ => h ts (by omega) (by omega)

theorem atomConfined_succ (hend : front stop tail = ⟨.eof, stop⟩)
    (hterm : TermConfined stop tail fuel fuel') (hatom : AtomConfined stop tail fuel fuel') :
    AtomConfined stop tail (fuel + 1) (fuel' + 1) := by
  intro ts hfuel hfuel'
  -- what follows the tokens is reached at their end only, and stands for the end of the input
  cases ts with
  | nil =>
    have hstop := Confined.refuse (α := Term) hend .term (List.suffix_refl ([] : List Lexeme))
    rwa [List.nil_append, ← atom_end hend] at hstop
  | cons l rest =>
    rw [List.length_cons] at hfuel hfuel'
    have ht : Confines stop tail rest.length (term stop fuel) (term stop fuel') :=
      confines_of_term hterm (by omega) (by omega)
    have ha : Confines stop tail rest.length (atom stop fuel) (atom stop fuel') :=
      confines_of_atom hatom (by omega) (by omega)
    have hrest : rest <:+ l :: rest := List.suffix_cons l rest
    have hform : ∀ {p p'}, Confines stop tail rest.length p p' →
        Confined stop tail (l :: rest) (p rest) (p' (rest ++ tail)) :=
      fun hp => (hp rest (Nat.le_refl _)).mono hrest
    obtain ⟨token, o⟩ := l
    have hrefuse := Confined.refuse (α := Term) hend .term (List.suffix_refl (⟨token, o⟩ :: rest))
    rw [List.cons_append] at hrefuse ⊢
    cases token with
    | ident x => exact .ok (Term.var x) hrest
    | int digits => exact confined_integer o digits rest
    | unit => exact .ok Term.unit hrest
    | lparen => exact hform (confines_enclosed hend ht)
    | lambda sign => exact hform (confines_abstraction hend ht)
    | bang => exact hform (confines_unary ha .deref)
    | assign => exact hform (confines_binary ha .assign)
    | keyword k =>
      cases k with
      | nilKw => exact .ok Term.nil hrest
      | letKw => exact hform (confines_letTerm hend ht)
      | ifzKw => exact hform (confines_branch hend ht .ifZero)
      | ifeKw => exact hform (confines_branch hend ht .ifEmpty)
      | consKw => exact hform (confines_binary ha .cons)
      | addKw => exact hform (confines_binary ha .add)
      | subKw => exact hform (confines_binary ha .sub)
      | headKw => exact hform (confines_unary ha .head)
      | tailKw => exact hform (confines_unary ha .tail)
      | fixKw => exact hform (confines_unary ha .fix)
      | refKw => exact hform (confines_unary ha .mkRef)
      | inKw | thenKw | elseKw => exact hrefuse
    | dot | rparen | equals | semi | eof => exact hrefuse

theorem applicationConfined_succ (hend : front stop tail = ⟨.eof, stop⟩)
    (hatom : AtomConfined stop tail fuel fuel') (happ : ApplicationConfined stop tail fuel fuel') :
    ApplicationConfined stop tail (fuel + 1) (fuel' + 1) := by
  intro f ts hfuel hfuel'
  rw [application, application, front_append hend]
  split
  · refine (hatom ts (by omega) (by omega)).bind fun a rest h hrest => ?_
    have hlt := length_lt_of_atom h
    exact (happ _ rest (by omega) (by omega)).mono hrest
  · exact .ok f List.suffix_rfl

theorem termConfined_succ (hatom : AtomConfined stop tail fuel fuel')
    (happ : ApplicationConfined stop tail fuel fuel') :
    TermConfined stop tail (fuel + 1) (fuel' + 1) := by
  intro ts hfuel hfuel'
  rw [term, term]
  refine (hatom ts (by omega) (by omega)).bind fun a rest h hrest => ?_
  have hlt := length_lt_of_atom h
  exact (happ _ rest (by omega) (by omega)).mono hrest

/-- The parser is confined, whatever bounds of the depth leave room for the tokens. -/
theorem confined_grammar (hend : front stop tail = ⟨.eof, stop⟩) (fuel fuel' : Nat) :
    TermConfined stop tail fuel fuel' ∧ ApplicationConfined stop tail fuel fuel' ∧
      AtomConfined stop tail fuel fuel' := by
  induction fuel generalizing fuel' with
  | zero =>
    refine ⟨?_, ?_, ?_⟩
    · intro ts hfuel
      omega
    · intro f ts hfuel
      omega
    · intro ts hfuel
      omega
  | succ fuel ih =>
    cases fuel' with
    | zero =>
      refine ⟨?_, ?_, ?_⟩
      · intro ts hfuel hfuel'
        omega
      · intro f ts hfuel hfuel'
        omega
      · intro ts hfuel hfuel'
        omega
    | succ fuel' =>
      obtain ⟨hterm, happ, hatom⟩ := ih fuel'
      exact ⟨termConfined_succ hatom happ, applicationConfined_succ hend hatom happ,
        atomConfined_succ hend hterm hatom⟩

theorem depthFor_append (ts tail : List Lexeme) : 2 * ts.length + 2 ≤ depthFor (ts ++ tail) := by
  rw [depthFor, List.length_append]
  omega

theorem confined_readTerm (hend : front stop tail = ⟨.eof, stop⟩) (ts : List Lexeme) :
    Confined stop tail ts (readTerm stop ts) (readTerm stop (ts ++ tail)) :=
  (confined_grammar hend _ _).1 ts (Nat.le_refl _) (depthFor_append ts tail)

theorem confined_application (hend : front stop tail = ⟨.eof, stop⟩) (f : Term)
    (ts : List Lexeme) :
    Confined stop tail ts (application stop (depthFor ts) f ts)
      (application stop (depthFor (ts ++ tail)) f (ts ++ tail)) :=
  (confined_grammar hend _ _).2.1 f ts (Nat.le_refl _) (depthFor_append ts tail)

/-! ### Statements and programs -/

/-- What a statement does behind the value of its binding, which stands after `let`. -/
def afterValue (stop o : Nat) (x : String) (value : Term) :
    List Lexeme → Except ParseError (Statement × List Lexeme)
  | ⟨.keyword .inKw, _⟩ :: rest => do
    let (body, rest) ← readTerm stop rest
    let (t, rest) ← application stop (depthFor rest) (.letIn x value body) rest
    return (⟨none, t, o⟩, rest)
  | rest => .ok (⟨some x, value, o⟩, rest)

theorem statement_let (o : Nat) :
    statement stop (⟨.keyword .letKw, o⟩ :: ts) =
      binding stop (readTerm stop) ts >>= fun p => afterValue stop o p.1 p.2.1 p.2.2 := rfl

theorem afterValue_other {o : Nat} {x : String} {v : Term}
    (h : (front stop ts).token ≠ .keyword .inKw) :
    afterValue stop o x v ts = .ok (⟨some x, v, o⟩, ts) := by
  rw [afterValue.eq_def]
  split
  · exact absurd rfl h
  · rfl

theorem confined_afterValue (hend : front stop tail = ⟨.eof, stop⟩) (o : Nat) (x : String)
    (v : Term) (ts : List Lexeme) :
    Confined stop tail ts (afterValue stop o x v ts) (afterValue stop o x v (ts ++ tail)) := by
  by_cases hin : (front stop ts).token = .keyword .inKw
  · cases ts with
    | nil => cases hin
    | cons l rest =>
      obtain ⟨token, o'⟩ := l
      obtain rfl : token = .keyword .inKw := hin
      refine Confined.mono ?_ (List.suffix_cons _ rest)
      refine (confined_readTerm hend rest).bind fun b rest₁ _ h₁ => ?_
      refine ((confined_application hend _ rest₁).mono h₁).bind fun t rest₂ _ h₂ => ?_
      exact .ok (Statement.mk none t o) h₂
  · rw [afterValue_other hin, afterValue_other (by rwa [front_append hend])]
    exact .ok (Statement.mk (some x) v o) List.suffix_rfl

theorem statement_bare (h : (front stop ts).token ≠ .keyword .letKw) :
    statement stop ts = readTerm stop ts >>= fun p =>
      .ok (⟨none, p.1, (front stop ts).offset⟩, p.2) := by
  rw [statement.eq_def]
  split
  · exact absurd rfl h
  · rfl

theorem confined_statement (hend : front stop tail = ⟨.eof, stop⟩) (ts : List Lexeme) :
    Confined stop tail ts (statement stop ts) (statement stop (ts ++ tail)) := by
  by_cases hlet : (front stop ts).token = .keyword .letKw
  · cases ts with
    | nil => cases hlet
    | cons l rest =>
      obtain ⟨token, o⟩ := l
      obtain rfl : token = .keyword .letKw := hlet
      have hread : Confines stop tail rest.length (readTerm stop) (readTerm stop) :=
        fun ts _ => confined_readTerm hend ts
      rw [List.cons_append, statement_let, statement_let]
      refine Confined.mono ?_ (List.suffix_cons _ rest)
      refine confined_binding hend hread (Nat.le_refl _) List.suffix_rfl fun x v rest₁ h₁ => ?_
      exact (confined_afterValue hend o x v rest₁).mono h₁
  · rw [statement_bare hlet, statement_bare (by rwa [front_append hend]), front_append hend]
    exact (confined_readTerm hend ts).bind fun t rest _ hrest => .ok _ hrest

/-! ### Where errors stand -/

theorem bind_error {ε α β : Type} {x : Except ε α} {f : α → Except ε β} {e : ε}
    (h : x >>= f = .error e) : x = .error e ∨ ∃ a, x = .ok a ∧ f a = .error e := by
  cases x with
  | error e' =>
    cases h
    exact .inl rfl
  | ok a => exact .inr ⟨a, rfl, h⟩

theorem marks_of_finish {e : ParseError} (h : finish stop ts = .error e) :
    Marks stop ts e.offset := by
  cases ts with
  | nil => cases h
  | cons l ts =>
    cases h
    exact marks_front stop (l :: ts)

theorem marks_of_expect {token : Token} {wanted : Expected} {e : ParseError}
    (h : expect stop token wanted ts = .error e) : Marks stop ts e.offset := by
  rw [expect.eq_def] at h
  split at h
  · split at h
    · cases h
    · cases h
      exact marks_front stop _
  · cases h
    exact marks_front stop []

theorem suffix_of_readTerm {t : Term} (h : readTerm stop ts = .ok (t, rest)) : rest <:+ ts := by
  have hconfined : Confined stop [] ts _ _ := confined_readTerm rfl ts
  exact hconfined.rest t rest h

theorem suffix_of_statement {st : Statement} (h : statement stop ts = .ok (st, rest)) :
    rest <:+ ts := by
  have hconfined : Confined stop [] ts _ _ := confined_statement rfl ts
  exact hconfined.rest st rest h

theorem marks_of_readTerm {e : ParseError} (h : readTerm stop ts = .error e) :
    Marks stop ts e.offset := by
  have hconfined : Confined stop [] ts _ _ := confined_readTerm rfl ts
  exact hconfined.error e h

theorem marks_of_statement {e : ParseError} (h : statement stop ts = .error e) :
    Marks stop ts e.offset := by
  have hconfined : Confined stop [] ts _ _ := confined_statement rfl ts
  exact hconfined.error e h

theorem marks_of_wholeTerm {e : ParseError} (h : wholeTerm stop ts = .error e) :
    Marks stop ts e.offset := by
  rcases bind_error h with h | ⟨⟨t, rest⟩, hread, h⟩
  · exact marks_of_readTerm h
  rcases bind_error h with h | ⟨u, -, h⟩
  · exact (marks_of_finish h).mono (suffix_of_readTerm hread)
  · cases h

theorem marks_of_program {turns : Nat} {e : ParseError} (h : program stop turns ts = .error e) :
    Marks stop ts e.offset := by
  induction turns generalizing ts with
  | zero =>
    cases ts with
    | nil => cases h
    | cons l ts =>
      cases h
      exact marks_front stop (l :: ts)
  | succ turns ih =>
    cases ts with
    | nil => cases h
    | cons l ts =>
      by_cases hl : l.token = .semi
      · obtain ⟨token, o⟩ := l
        obtain rfl : token = .semi := hl
        exact (ih h).mono (List.suffix_cons _ ts)
      rw [program_succ hl] at h
      rcases bind_error h with h | ⟨⟨st, rest⟩, hst, h⟩
      · exact marks_of_statement h
      have hrest := suffix_of_statement hst
      simp only at h
      split at h
      · cases h
      rcases bind_error h with hsemi | ⟨rest', hsemi, hmore⟩
      · exact (marks_of_expect hsemi).mono hrest
      obtain ⟨o, rfl⟩ := expect_ok hsemi
      rcases bind_error hmore with hmore | ⟨more, -, hmore⟩
      · exact (ih hmore).mono ((List.suffix_cons _ _).trans hrest)
      · cases hmore

theorem length_lt_of_statement {st : Statement} (h : statement stop ts = .ok (st, rest)) :
    rest.length < ts.length := by
  obtain ⟨w, rfl, hw⟩ := derives_of_statement h
  obtain ⟨l, w, rfl, -⟩ := hw.starts
  simp only [List.length_append, List.length_cons]
  omega

/-- The bound of the turns makes no difference if it leaves room for the tokens. -/
theorem program_enough {turns turns' : Nat} (h : ts.length ≤ turns) (h' : ts.length ≤ turns') :
    program stop turns ts = program stop turns' ts := by
  induction turns generalizing turns' ts with
  | zero =>
    obtain rfl := List.length_eq_zero_iff.mp (Nat.le_zero.mp h)
    cases turns' <;> rfl
  | succ turns ih =>
    cases ts with
    | nil => cases turns' <;> rfl
    | cons l ts =>
      obtain ⟨turns', rfl⟩ := Nat.exists_eq_succ_of_ne_zero (Nat.ne_zero_of_lt h')
      simp only [List.length_cons, Nat.succ_eq_add_one] at h h'
      by_cases hl : l.token = .semi
      · obtain ⟨token, o⟩ := l
        obtain rfl : token = .semi := hl
        exact ih (by omega) (by omega)
      rw [Nat.succ_eq_add_one, program_succ hl, program_succ hl]
      cases hst : statement stop (l :: ts) with
      | error e => rfl
      | ok p =>
        obtain ⟨st, rest⟩ := p
        -- a statement uses a token, which pays for its turn
        have hlt := length_lt_of_statement hst
        rw [List.length_cons] at hlt
        cases rest with
        | nil => rfl
        | cons l' rest =>
          cases hsemi : expect stop .semi .semi (l' :: rest) with
          | error e =>
            simp only [ok_bind, hsemi]
            rfl
          | ok rest' =>
            obtain ⟨o, heq⟩ := expect_ok hsemi
            obtain ⟨rfl, rfl⟩ := List.cons.inj heq
            rw [List.length_cons] at hlt
            simp only [ok_bind, hsemi]
            rw [ih (by omega) (by omega : rest.length ≤ turns')]

/-- The loop over the statements of a program comes to `rest`, having read `sts`.  It goes
    on behind a separator, and behind a statement if a separator or the end follows. -/
inductive ComesTo (stop : Nat) (ts : List Lexeme) : List Statement → List Lexeme → Prop where
  | start : ComesTo stop ts [] ts
  | blank {sts : List Statement} {o : Nat} {rest : List Lexeme}
      (h : ComesTo stop ts sts (⟨.semi, o⟩ :: rest)) : ComesTo stop ts sts rest
  | statement {sts : List Statement} {st : Statement} {w rest : List Lexeme}
      (h : ComesTo stop ts sts w) (hw : (front stop w).token ≠ .semi)
      (hst : statement stop w = .ok (st, rest))
      (hrest : (front stop rest).token = .semi ∨ rest = []) : ComesTo stop ts (sts ++ [st]) rest

theorem ComesTo.suffix {sts : List Statement} (h : ComesTo stop ts sts rest) : rest <:+ ts := by
  induction h with
  | start => exact List.suffix_rfl
  | blank h ih => exact (List.suffix_cons _ _).trans ih
  | statement h hw hst hrest ih => exact (suffix_of_statement hst).trans ih

/-- One turn of the loop reads one statement. -/
theorem program_turn {st : Statement} (hts : (front stop ts).token ≠ .semi)
    (hst : statement stop ts = .ok (st, rest))
    (hrest : (front stop rest).token = .semi ∨ rest = []) :
    program stop ts.length ts = (program stop rest.length rest).map (st :: ·) := by
  have hlt := length_lt_of_statement hst
  cases ts with
  | nil => exact absurd hlt (Nat.not_lt_zero _)
  | cons l ts =>
    have hl : l.token ≠ .semi := hts
    rw [List.length_cons] at hlt ⊢
    rw [program_succ hl, hst]
    rcases hrest with hsemi | rfl
    · cases rest with
      | nil => cases hsemi
      | cons l' rest =>
        obtain ⟨token, o⟩ := l'
        obtain rfl : token = .semi := hsemi
        simp only [List.length_cons] at hlt ⊢
        simp only [ok_bind, expect_cons]
        rw [program_enough (by omega : rest.length ≤ ts.length) (Nat.le_refl _)]
        change _ = (program stop rest.length rest).map (st :: ·)
        cases program stop rest.length rest <;> rfl
    · rfl

/-- From there, the loop does what it would do with the tokens that are left. -/
theorem ComesTo.program_eq {sts : List Statement} (h : ComesTo stop ts sts rest) :
    program stop ts.length ts = (program stop rest.length rest).map (sts ++ ·) := by
  induction h with
  | start => cases program stop ts.length ts <;> rfl
  | blank h ih => exact ih
  | @statement sts st w rest h hw hst hrest ih =>
    rw [ih, program_turn hw hst hrest]
    cases program stop rest.length rest with
    | error e => rfl
    | ok more =>
      change Except.ok (sts ++ st :: more) = .ok (sts ++ [st] ++ more)
      rw [List.append_assoc, List.singleton_append]

/-- A source that does not parse does not scan, or has an error at one of its tokens. -/
theorem marks_of_error {source : List Glyph} {e : ParseError}
    (h : parseTerm source = .error e ∨ parseStatement source = .error e ∨
      parseProgram source = .error e) :
    scan source = .error e ∨
      ∃ ts, scan source = .ok ts ∧ Marks (Glyph.widths source) ts e.offset := by
  rcases h with h | h | h
  · rcases bind_error (parseTerm_eq source ▸ h) with h | ⟨ts, hscan, h⟩
    · exact .inl h
    · exact .inr ⟨ts, hscan, marks_of_wholeTerm h⟩
  · rcases bind_error h with h | ⟨ts, hscan, h⟩
    · exact .inl h
    refine .inr ⟨ts, hscan, ?_⟩
    rcases bind_error h with h | ⟨⟨st, rest⟩, hst, h⟩
    · exact marks_of_statement h
    rcases bind_error h with h | ⟨u, -, h⟩
    · exact (marks_of_finish h).mono (suffix_of_statement hst)
    · cases h
  · rcases bind_error h with h | ⟨ts, hscan, h⟩
    · exact .inl h
    · exact .inr ⟨ts, hscan, marks_of_program h⟩

end Terms

end Parse

/-! ### Errors point into the source -/

open Utf8 Parse

/-- The error stands at the first glyph that does not scan: tokens and layout stand before
    it, and no item begins with it. -/
def Unscannable (src : List UInt8) (e : ParseError) : Prop :=
  ∃ pre g rest ts, decode src = pre ++ g :: rest ∧ e.offset = Glyph.widths pre ∧
    Tiles 0 (encode pre) ts ∧ Scan.lexeme g.toChar rest = .error e.fault

/-- All bytes of the source are accounted for: each token is written out at its offset,
    and layout is between them. -/
structure Lossless (src : List UInt8) (ts : List Lexeme) : Prop where
  increasing : ((withEnd src.length ts).map Lexeme.offset).Pairwise (· < ·)
  ne_eof : ∀ l ∈ ts, l.token ≠ .eof
  written : ∀ l ∈ ts, ∃ cs, l.token.Written cs ∧ encode (cs.map .char) <+: src.drop l.offset
  tiles : ∃ covered last, src = covered ++ last ∧ Tiles 0 covered ts ∧ LastComment last

theorem lossless_of_scan {src : List UInt8} {ts : List Lexeme} (h : scan (decode src) = .ok ts) :
    Lossless src ts := by
  have haccounted := Scan.accounted src
  rw [h] at haccounted
  obtain ⟨covered, last, hsrc, htiles, hlast⟩ := haccounted
  rw [encode_decode] at hsrc
  subst hsrc
  refine ⟨htiles.increasing ?_, htiles.ne_eof, ?_, covered, last, rfl, htiles, hlast⟩
  · rw [List.length_append]
    omega
  · intro l hl
    obtain ⟨cs, before, after, hcs, rfl, hoffset⟩ := htiles.written l hl
    refine ⟨cs, hcs, after ++ last, ?_⟩
    rw [hoffset, Nat.zero_add, List.append_assoc, List.drop_left, List.append_assoc]

theorem unscannable_of_scan {src : List UInt8} {e : ParseError}
    (h : scan (decode src) = .error e) : e.offset ≤ src.length ∧ Unscannable src e := by
  have haccounted := Scan.accounted src
  rw [h] at haccounted
  obtain ⟨pre, g, rest, ts, hsrc, hoffset, htiles, hfault⟩ := haccounted
  rw [Nat.zero_add] at hoffset
  refine ⟨?_, pre, g, rest, ts, hsrc, hoffset, htiles, hfault⟩
  rw [hoffset, ← widths_decode src, hsrc, Scan.widths_append]
  exact Nat.le_add_right _ _

theorem Lossless.le_length {src : List UInt8} {ts : List Lexeme} (h : Lossless src ts) {o : Nat}
    (ho : Marks src.length ts o) : o ≤ src.length := by
  have hincreasing := h.increasing
  rw [withEnd, List.map_append, List.pairwise_append] at hincreasing
  rw [Marks, withEnd, List.map_append, List.mem_append] at ho
  rcases ho with ho | ho
  · exact Nat.le_of_lt (hincreasing.2.2 o ho src.length (List.mem_singleton_self _))
  · exact Nat.le_of_eq (List.mem_singleton.mp ho)

/-- What the parser sees next is the token under its cursor, the end included. -/
theorem getElem?_withEnd {stop : Nat} {ts rest : List Lexeme} (hrest : rest <:+ ts) :
    (withEnd stop ts)[ts.length - rest.length]? = some (front stop rest) := by
  obtain ⟨w, rfl⟩ := hrest
  rw [withEnd, List.append_assoc, List.length_append, Nat.add_sub_cancel,
    List.getElem?_append_right (Nat.le_refl _), Nat.sub_self]
  cases rest <;> rfl

/-- The parser does not get past the end of the input, which stands behind the tokens `ts`
    as a token of its own.  Wherever its cursor is, the token that it sees is one of these.
    It makes no difference to a term or a statement what stands behind the end, and the
    loop over statements only comes to places among the tokens. -/
structure RespectsEnd (stop : Nat) (ts : List Lexeme) : Prop where
  sees : ∀ rest, rest <:+ ts → (withEnd stop ts)[ts.length - rest.length]? = some (front stop rest)
  term : ∀ more, Confined stop (⟨.eof, stop⟩ :: more) ts
    (readTerm stop ts) (readTerm stop (ts ++ ⟨.eof, stop⟩ :: more))
  statement : ∀ more, Confined stop (⟨.eof, stop⟩ :: more) ts
    (statement stop ts) (statement stop (ts ++ ⟨.eof, stop⟩ :: more))
  program : ∀ sts rest, ComesTo stop ts sts rest →
    rest <:+ ts ∧ program stop ts.length ts = (program stop rest.length rest).map (sts ++ ·)

theorem respectsEnd (stop : Nat) (ts : List Lexeme) : RespectsEnd stop ts where
  sees := fun _ hrest => getElem?_withEnd hrest
  term := fun _ => confined_readTerm rfl ts
  statement := fun _ => confined_statement rfl ts
  program := fun _ _ h => ⟨h.suffix, h.program_eq⟩

/-- **Scanning loses nothing, and errors point into the source**, whatever the bytes are.
    The tokens of a source that scans account for all of its bytes.  An error of a parser
    stands at a token, at the end of the input, or at the first character that does not
    scan.  The token for the end has the length of the source as its offset, and the parser
    never gets past it. -/
theorem parsing_stays_in_source (src : List UInt8) :
    (∀ ts, scan (decode src) = .ok ts → Lossless src ts) ∧
    (∀ e, parseTerm (decode src) = .error e ∨ parseStatement (decode src) = .error e ∨
        parseProgram (decode src) = .error e →
      e.offset ≤ src.length ∧
        (Unscannable src e ∨
          ∃ ts, scan (decode src) = .ok ts ∧ Marks src.length ts e.offset)) ∧
    Glyph.widths (decode src) = src.length ∧
    ∀ ts, RespectsEnd src.length ts := by
  refine ⟨fun ts h => lossless_of_scan h, ?_, widths_decode src, respectsEnd src.length⟩
  intro e h
  rcases marks_of_error h with hscan | ⟨ts, hscan, hmarks⟩
  · obtain ⟨hle, hfault⟩ := unscannable_of_scan hscan
    exact ⟨hle, .inl hfault⟩
  · rw [widths_decode] at hmarks
    exact ⟨(lossless_of_scan hscan).le_length hmarks, .inr ⟨ts, hscan, hmarks⟩⟩

/-- A byte that is no text in a comment, then `( )` and a parenthesis too many. -/
theorem parsing_stays_in_source_strayByte :
    ∃ ts e, scan (decode [0x23, 0xFF, 0x0A, 0x28, 0x20, 0x29, 0x29]) = .ok ts ∧
      parseTerm (decode [0x23, 0xFF, 0x0A, 0x28, 0x20, 0x29, 0x29]) = .error e ∧
      ts = [⟨.unit, 3⟩, ⟨.rparen, 6⟩] ∧ e.offset = 6 ∧
      Lossless [0x23, 0xFF, 0x0A, 0x28, 0x20, 0x29, 0x29] ts ∧ e.offset ≤ 7 ∧
      (withEnd 7 ts)[1]? = some ⟨.rparen, 6⟩ := by
  have hscan : scan (decode [0x23, 0xFF, 0x0A, 0x28, 0x20, 0x29, 0x29]) =
      .ok [⟨.unit, 3⟩, ⟨.rparen, 6⟩] := by cbv
  have herror : parseTerm (decode [0x23, 0xFF, 0x0A, 0x28, 0x20, 0x29, 0x29]) =
      .error ⟨6, .unexpected .endOfInput .rparen⟩ := by cbv
  obtain ⟨hlossless, herrors, -, hend⟩ :=
    parsing_stays_in_source [0x23, 0xFF, 0x0A, 0x28, 0x20, 0x29, 0x29]
  exact ⟨_, _, hscan, herror, rfl, rfl, hlossless _ hscan, (herrors _ (.inl herror)).1,
    (hend [⟨.unit, 3⟩, ⟨.rparen, 6⟩]).sees _ (List.suffix_cons _ _)⟩

end MiniML
