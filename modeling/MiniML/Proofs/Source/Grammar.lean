/-
  MiniML/Proofs/Source/Grammar.lean
  =================================
  **The grammar of terms** — what a sequence of tokens spells, and that the parser
  reads exactly this.

      term ::= atom⁺                          application, grouped to the left
      atom ::= ident | integer | () | ( term ) | nil
             | λ ident . term | let ident = term in term
             | ifz term then term else term | ife term then term else term
             | cons atom atom | add atom atom | sub atom atom | := atom atom
             | head atom | tail atom | fix atom | ref atom | ! atom

  As it stands, the grammar is ambiguous: an abstraction, a `let` or a conditional
  may be an operand and ends in a term.  What makes it unambiguous is that a term is
  maximal, so that a derivation depends on the token after its words.  The judgements
  carry this token; they know of no bound on a depth and of no order of reading.
-/
import Mathlib.Algebra.Group.Nat.Defs
import Mathlib.Data.Set.Subsingleton
import MiniML.Source.Parse

namespace MiniML

namespace Grammar

open Parse

/-! ### Derivations -/

/-- The token after a place where `ws` stands, and `next` behind it. -/
def ahead (ws : List Token) (next : Token) : Token := ws.head?.getD next

@[simp] theorem ahead_cons (token : Token) (ws : List Token) (next : Token) :
    ahead (token :: ws) next = token := rfl

theorem ahead_append (ws ws' : List Token) (next : Token) :
    ahead (ws ++ ws') next = ahead ws (ahead ws' next) := by
  cases ws <;> rfl

/-- The tokens that no atom begins with.  A term ends only before one of these. -/
def closers : List Token :=
  [.dot, .rparen, .equals, .semi, .eof, .keyword .inKw, .keyword .thenKw, .keyword .elseKw]

/-- The signs of forms with one operand. -/
inductive Unary : Token → (Term → Term) → Prop where
  | head : Unary (.keyword .headKw) .head
  | tail : Unary (.keyword .tailKw) .tail
  | fix : Unary (.keyword .fixKw) .fix
  | ref : Unary (.keyword .refKw) .mkRef
  | bang : Unary .bang .deref

/-- The signs of forms with two operands. -/
inductive Binary : Token → (Term → Term → Term) → Prop where
  | cons : Binary (.keyword .consKw) .cons
  | add : Binary (.keyword .addKw) .add
  | sub : Binary (.keyword .subKw) .sub
  | assign : Binary .assign .assign

/-- The words that begin a conditional. -/
inductive Branching : Keyword → (Term → Term → Term → Term) → Prop where
  | ifz : Branching .ifzKw .ifZero
  | ife : Branching .ifeKw .ifEmpty

mutual

/-- The words spell the term, if `next` is the token after them: an atom applied to
    atoms, and no further atom begins after these. -/
inductive SpellsTerm : Token → List Token → Term → Prop where
  | application {next : Token} {w ws : List Token} {f : Term} {as : List Term}
      (func : SpellsAtom (ahead ws next) w f) (args : SpellsAtoms next ws as)
      (maximal : next ∈ closers) : SpellsTerm next (w ++ ws) (f.appMany as)

/-- The words spell these atoms, one after the other. -/
inductive SpellsAtoms : Token → List Token → List Term → Prop where
  | nil {next : Token} : SpellsAtoms next [] []
  | cons {next : Token} {w ws : List Token} {a : Term} {as : List Term}
      (first : SpellsAtom (ahead ws next) w a) (others : SpellsAtoms next ws as) :
      SpellsAtoms next (w ++ ws) (a :: as)

/-- The words spell the term as an atom. -/
inductive SpellsAtom : Token → List Token → Term → Prop where
  | ident {next : Token} (x : String) : SpellsAtom next [.ident x] (.var x)
  | int {next : Token} {digits : String} (fits : digitsValue digits < 2 ^ 63) :
      SpellsAtom next [.int digits] (.int (Int64.ofNat (digitsValue digits)))
  | unit {next : Token} : SpellsAtom next [.unit] .unit
  | nil {next : Token} : SpellsAtom next [.keyword .nilKw] .nil
  | enclosed {next : Token} {w : List Token} {t : Term} (inner : SpellsTerm .rparen w t) :
      SpellsAtom next (.lparen :: (w ++ [.rparen])) t
  | lambda {next : Token} {w : List Token} {b : Term} (sign : Char) (x : String)
      (body : SpellsTerm next w b) :
      SpellsAtom next (.lambda sign :: .ident x :: .dot :: w) (.abs x b)
  | letIn {next : Token} {w₁ w₂ : List Token} {v b : Term} (x : String)
      (value : SpellsTerm (.keyword .inKw) w₁ v) (body : SpellsTerm next w₂ b) :
      SpellsAtom next
        (.keyword .letKw :: .ident x :: .equals :: (w₁ ++ .keyword .inKw :: w₂)) (.letIn x v b)
  | branch {next : Token} {k : Keyword} {build : Term → Term → Term → Term}
      {w₁ w₂ w₃ : List Token} {c t e : Term} (sign : Branching k build)
      (cond : SpellsTerm (.keyword .thenKw) w₁ c) (first : SpellsTerm (.keyword .elseKw) w₂ t)
      (second : SpellsTerm next w₃ e) :
      SpellsAtom next
        (.keyword k :: (w₁ ++ .keyword .thenKw :: (w₂ ++ .keyword .elseKw :: w₃))) (build c t e)
  | unary {next op : Token} {build : Term → Term} {w : List Token} {a : Term}
      (sign : Unary op build) (operand : SpellsAtom next w a) :
      SpellsAtom next (op :: w) (build a)
  | binary {next op : Token} {build : Term → Term → Term} {w₁ w₂ : List Token} {a b : Term}
      (sign : Binary op build) (left : SpellsAtom (ahead w₂ next) w₁ a)
      (right : SpellsAtom next w₂ b) : SpellsAtom next (op :: (w₁ ++ w₂)) (build a b)

end

/-- The token before which a list of lexemes stands. -/
def following (ts : List Lexeme) : Token := ahead (ts.map Lexeme.token) .eof

/-- The lexemes begin with a spelling of `t`, and `rest` is left behind it. -/
def Derives (ts : List Lexeme) (t : Term) (rest : List Lexeme) : Prop :=
  ∃ w, ts = w ++ rest ∧ SpellsTerm (following rest) (w.map Lexeme.token) t

/-! ### Closing tokens -/

/-- The parser ends a term exactly where a derivation may end. -/
theorem startsAtom_eq_false_iff {token : Token} : startsAtom token = false ↔ token ∈ closers := by
  cases token with
  | keyword k => cases k <;> simp [startsAtom, closers]
  | ident | int | lambda | dot | lparen | rparen | unit | equals | bang | assign | semi | eof =>
    simp [startsAtom, closers]

theorem Unary.not_mem_closers {op : Token} {build : Term → Term} (h : Unary op build) :
    op ∉ closers := by
  cases h <;> simp [closers]

theorem Binary.not_mem_closers {op : Token} {build : Term → Term → Term} (h : Binary op build) :
    op ∉ closers := by
  cases h <;> simp [closers]

theorem Branching.not_mem_closers {k : Keyword} {build : Term → Term → Term → Term}
    (h : Branching k build) : .keyword k ∉ closers := by
  cases h <;> simp [closers]

/-- No atom begins with a closing token. -/
theorem SpellsAtom.starts {next : Token} {w : List Token} {t : Term} (h : SpellsAtom next w t) :
    ∃ token ws, w = token :: ws ∧ token ∉ closers := by
  cases h with
  | ident x => exact ⟨_, _, rfl, by simp [closers]⟩
  | int => exact ⟨_, _, rfl, by simp [closers]⟩
  | unit => exact ⟨_, _, rfl, by simp [closers]⟩
  | nil => exact ⟨_, _, rfl, by simp [closers]⟩
  | enclosed => exact ⟨_, _, rfl, by simp [closers]⟩
  | lambda => exact ⟨_, _, rfl, by simp [closers]⟩
  | letIn => exact ⟨_, _, rfl, by simp [closers]⟩
  | branch sign => exact ⟨_, _, rfl, sign.not_mem_closers⟩
  | unary sign => exact ⟨_, _, rfl, sign.not_mem_closers⟩
  | binary sign => exact ⟨_, _, rfl, sign.not_mem_closers⟩

theorem SpellsAtom.length_pos {next : Token} {w : List Token} {t : Term}
    (h : SpellsAtom next w t) : 0 < w.length := by
  obtain ⟨token, ws, rfl, -⟩ := h.starts
  exact Nat.succ_pos _

theorem SpellsTerm.length_pos {next : Token} {w : List Token} {t : Term}
    (h : SpellsTerm next w t) : 0 < w.length := by
  cases h with
  | application func args maximal =>
    rw [List.length_append]
    exact Nat.add_pos_left func.length_pos _

theorem front_token (stop : Nat) (ts : List Lexeme) : (front stop ts).token = following ts := by
  cases ts <;> rfl

theorem following_append (ts rest : List Lexeme) :
    following (ts ++ rest) = ahead (ts.map Lexeme.token) (following rest) := by
  rw [following, List.map_append, ahead_append, following]

/-! ### What is read is derivable -/

/-- What the reader takes spells, in the sense of `G`, what the reader gives. -/
def Gives (G : Token → List Token → Term → Prop) (p : Reader) : Prop :=
  ∀ ⦃ts : List Lexeme⦄ ⦃t : Term⦄ ⦃rest : List Lexeme⦄, p ts = .ok (t, rest) →
    ∃ w, ts = w ++ rest ∧ G (following rest) (w.map Lexeme.token) t

theorem gives_refuse (G : Token → List Token → Term → Prop) (stop : Nat) (wanted : Expected) :
    Gives G (refuse stop wanted) := by
  intro ts t rest h
  cases h

theorem bind_ok {ε α β : Type} {x : Except ε α} {f : α → Except ε β} {b : β}
    (h : (x >>= f) = .ok b) : ∃ a, x = .ok a ∧ f a = .ok b := by
  cases x with
  | error e => cases h
  | ok a => exact ⟨a, rfl, h⟩

theorem expect_ok {stop : Nat} {token : Token} {wanted : Expected} {ts rest : List Lexeme}
    (h : expect stop token wanted ts = .ok rest) : ∃ offset, ts = ⟨token, offset⟩ :: rest := by
  cases ts with
  | nil => cases h
  | cons l ts =>
    obtain ⟨token', offset⟩ := l
    rw [expect] at h
    split at h
    · rename_i heq
      cases h
      exact ⟨offset, by rw [← heq]⟩
    · cases h

theorem ident_ok {stop : Nat} {ts rest : List Lexeme} {x : String}
    (h : ident stop ts = .ok (x, rest)) : ∃ offset, ts = ⟨.ident x, offset⟩ :: rest := by
  rw [ident.eq_def] at h
  split at h
  · cases h
    exact ⟨_, rfl⟩
  · cases h

theorem literal?_eq (digits : String) :
    literal? digits =
      if digitsValue digits < 2 ^ 63 then some (Int64.ofNat (digitsValue digits)) else none := by
  rw [literal?, int64?]
  by_cases h : digitsValue digits < 2 ^ 63
  · rw [if_pos h, if_pos (by omega), Int64.ofInt_eq_ofNat]
  · rw [if_neg h, if_neg (by omega)]

section Readers

variable {stop : Nat} {part operand : Reader}

theorem gives_integer (offset : Nat) (digits : String) :
    Gives (fun next w => SpellsAtom next (.int digits :: w)) (integer offset digits) := by
  intro ts t rest h
  rw [integer, literal?_eq] at h
  split at h
  · rename_i fits
    cases h
    exact ⟨[], rfl, .int fits⟩
  · cases h

theorem gives_unary {op : Token} {build : Term → Term} (sign : Unary op build)
    (hp : Gives SpellsAtom operand) :
    Gives (fun next w => SpellsAtom next (op :: w)) (unary operand build) := by
  intro ts t rest h
  obtain ⟨⟨a, ts₁⟩, ha, h⟩ := bind_ok h
  cases h
  obtain ⟨w, rfl, hw⟩ := hp ha
  exact ⟨w, rfl, .unary sign hw⟩

theorem gives_binary {op : Token} {build : Term → Term → Term} (sign : Binary op build)
    (hp : Gives SpellsAtom operand) :
    Gives (fun next w => SpellsAtom next (op :: w)) (binary operand build) := by
  intro ts t rest h
  obtain ⟨⟨a, ts₁⟩, ha, h⟩ := bind_ok h
  obtain ⟨⟨b, ts₂⟩, hb, h⟩ := bind_ok h
  cases h
  obtain ⟨w₁, rfl, hw₁⟩ := hp ha
  obtain ⟨w₂, rfl, hw₂⟩ := hp hb
  refine ⟨w₁ ++ w₂, by rw [List.append_assoc], ?_⟩
  rw [List.map_append]
  rw [following_append] at hw₁
  exact .binary sign hw₁ hw₂

theorem gives_enclosed (hp : Gives SpellsTerm part) :
    Gives (fun next w => SpellsAtom next (.lparen :: w)) (enclosed stop part) := by
  intro ts t rest h
  obtain ⟨⟨a, ts₁⟩, ha, h⟩ := bind_ok h
  obtain ⟨ts₂, hclose, h⟩ := bind_ok h
  cases h
  obtain ⟨offset, rfl⟩ := expect_ok hclose
  obtain ⟨w, rfl, hw⟩ := hp ha
  refine ⟨w ++ [⟨.rparen, offset⟩], by simp, ?_⟩
  rw [List.map_append]
  exact .enclosed hw

theorem gives_abstraction (sign : Char) (hp : Gives SpellsTerm part) :
    Gives (fun next w => SpellsAtom next (.lambda sign :: w)) (abstraction stop part) := by
  intro ts t rest h
  obtain ⟨⟨x, ts₁⟩, hx, h⟩ := bind_ok h
  obtain ⟨ts₂, hdot, h⟩ := bind_ok h
  obtain ⟨⟨b, ts₃⟩, hb, h⟩ := bind_ok h
  cases h
  obtain ⟨o₁, rfl⟩ := ident_ok hx
  obtain ⟨o₂, rfl⟩ := expect_ok hdot
  obtain ⟨w, rfl, hw⟩ := hp hb
  exact ⟨⟨.ident x, o₁⟩ :: ⟨.dot, o₂⟩ :: w, rfl, .lambda sign x hw⟩

theorem binding_ok (hp : Gives SpellsTerm part) {ts rest : List Lexeme} {x : String} {v : Term}
    (h : binding stop part ts = .ok (x, v, rest)) :
    ∃ o₁ o₂ w, ts = ⟨.ident x, o₁⟩ :: ⟨.equals, o₂⟩ :: (w ++ rest) ∧
      SpellsTerm (following rest) (w.map Lexeme.token) v := by
  obtain ⟨⟨y, ts₁⟩, hy, h⟩ := bind_ok h
  obtain ⟨ts₂, heq, h⟩ := bind_ok h
  obtain ⟨⟨u, ts₃⟩, hu, h⟩ := bind_ok h
  cases h
  obtain ⟨o₁, rfl⟩ := ident_ok hy
  obtain ⟨o₂, rfl⟩ := expect_ok heq
  obtain ⟨w, rfl, hw⟩ := hp hu
  exact ⟨o₁, o₂, w, rfl, hw⟩

theorem gives_letTerm (hp : Gives SpellsTerm part) :
    Gives (fun next w => SpellsAtom next (.keyword .letKw :: w)) (letTerm stop part) := by
  intro ts t rest h
  obtain ⟨⟨x, v, ts₁⟩, hv, h⟩ := bind_ok h
  obtain ⟨ts₂, hin, h⟩ := bind_ok h
  obtain ⟨⟨b, ts₃⟩, hb, h⟩ := bind_ok h
  cases h
  obtain ⟨o₁, o₂, w₁, rfl, hw₁⟩ := binding_ok hp hv
  obtain ⟨o₃, rfl⟩ := expect_ok hin
  obtain ⟨w₂, rfl, hw₂⟩ := hp hb
  refine ⟨⟨.ident x, o₁⟩ :: ⟨.equals, o₂⟩ :: (w₁ ++ ⟨.keyword .inKw, o₃⟩ :: w₂), by simp, ?_⟩
  simp only [List.map_cons, List.map_append]
  exact .letIn x hw₁ hw₂

theorem gives_branch {k : Keyword} {build : Term → Term → Term → Term} (sign : Branching k build)
    (hp : Gives SpellsTerm part) :
    Gives (fun next w => SpellsAtom next (.keyword k :: w)) (branch stop part build) := by
  intro ts t rest h
  obtain ⟨⟨c, ts₁⟩, hc, h⟩ := bind_ok h
  obtain ⟨ts₂, hthen, h⟩ := bind_ok h
  obtain ⟨⟨l, ts₃⟩, hl, h⟩ := bind_ok h
  obtain ⟨ts₄, helse, h⟩ := bind_ok h
  obtain ⟨⟨e, ts₅⟩, he, h⟩ := bind_ok h
  cases h
  obtain ⟨o₁, rfl⟩ := expect_ok hthen
  obtain ⟨o₂, rfl⟩ := expect_ok helse
  obtain ⟨w₁, rfl, hw₁⟩ := hp hc
  obtain ⟨w₂, rfl, hw₂⟩ := hp hl
  obtain ⟨w₃, rfl, hw₃⟩ := hp he
  refine ⟨w₁ ++ ⟨.keyword .thenKw, o₁⟩ :: (w₂ ++ ⟨.keyword .elseKw, o₂⟩ :: w₃), by simp, ?_⟩
  simp only [List.map_cons, List.map_append]
  exact .branch sign hw₁ hw₂ hw₃

end Readers

/-- A reader of what follows a first token makes a reader of atoms. -/
theorem atom_of_gives {l : Lexeme} {p : Reader} {ts rest : List Lexeme} {t : Term}
    (hp : Gives (fun next w => SpellsAtom next (l.token :: w)) p) (h : p ts = .ok (t, rest)) :
    ∃ w, l :: ts = w ++ rest ∧ SpellsAtom (following rest) (w.map Lexeme.token) t := by
  obtain ⟨w, rfl, hw⟩ := hp h
  exact ⟨l :: w, rfl, hw⟩

section Terms

variable {stop fuel : Nat}

theorem gives_keyword (hterm : Gives SpellsTerm (term stop fuel))
    (hatom : Gives SpellsAtom (atom stop fuel)) {k : Keyword} {offset : Nat}
    {ts rest : List Lexeme} {t : Term}
    (h : atom stop (fuel + 1) (⟨.keyword k, offset⟩ :: ts) = .ok (t, rest)) :
    ∃ w, ⟨.keyword k, offset⟩ :: ts = w ++ rest ∧
      SpellsAtom (following rest) (w.map Lexeme.token) t := by
  rw [atom] at h
  cases k with
  | nilKw =>
    cases h
    exact ⟨[⟨.keyword .nilKw, offset⟩], rfl, .nil⟩
  | letKw => exact atom_of_gives (gives_letTerm hterm) h
  | ifzKw => exact atom_of_gives (gives_branch .ifz hterm) h
  | ifeKw => exact atom_of_gives (gives_branch .ife hterm) h
  | consKw => exact atom_of_gives (gives_binary .cons hatom) h
  | addKw => exact atom_of_gives (gives_binary .add hatom) h
  | subKw => exact atom_of_gives (gives_binary .sub hatom) h
  | headKw => exact atom_of_gives (gives_unary .head hatom) h
  | tailKw => exact atom_of_gives (gives_unary .tail hatom) h
  | fixKw => exact atom_of_gives (gives_unary .fix hatom) h
  | refKw => exact atom_of_gives (gives_unary .ref hatom) h
  | inKw | thenKw | elseKw => cases h

theorem gives_atom_succ (hterm : Gives SpellsTerm (term stop fuel))
    (hatom : Gives SpellsAtom (atom stop fuel)) : Gives SpellsAtom (atom stop (fuel + 1)) := by
  intro ts t rest h
  -- the first token decides the form, as in `atom`
  cases ts with
  | nil =>
    rw [atom] at h
    exact gives_refuse _ stop .term h
  | cons l ts =>
    obtain ⟨token, offset⟩ := l
    cases token with
    | keyword k => exact gives_keyword hterm hatom h
    | ident x =>
      rw [atom] at h
      cases h
      exact ⟨[⟨.ident x, offset⟩], rfl, .ident x⟩
    | unit =>
      rw [atom] at h
      cases h
      exact ⟨[⟨.unit, offset⟩], rfl, .unit⟩
    | int digits =>
      rw [atom] at h
      exact atom_of_gives (gives_integer offset digits) h
    | lparen =>
      rw [atom] at h
      exact atom_of_gives (gives_enclosed hterm) h
    | lambda sign =>
      rw [atom] at h
      exact atom_of_gives (gives_abstraction sign hterm) h
    | bang =>
      rw [atom] at h
      exact atom_of_gives (gives_unary .bang hatom) h
    | assign =>
      rw [atom] at h
      exact atom_of_gives (gives_binary .assign hatom) h
    | dot | rparen | equals | semi | eof =>
      rw [atom] at h
      exact gives_refuse _ stop .term h

/-- What the parser reads after `f` are the atoms to which it applies it. -/
def SpellsArguments (f : Term) (next : Token) (w : List Token) (t : Term) : Prop :=
  ∃ as, SpellsAtoms next w as ∧ t = f.appMany as ∧ next ∈ closers

theorem gives_application_succ (hatom : Gives SpellsAtom (atom stop fuel))
    (happ : ∀ f, Gives (SpellsArguments f) (application stop fuel f)) (f : Term) :
    Gives (SpellsArguments f) (application stop (fuel + 1) f) := by
  intro ts t rest h
  rw [application, front_token] at h
  split at h
  · obtain ⟨⟨a, ts₁⟩, ha, hargs⟩ := bind_ok h
    obtain ⟨w, rfl, hw⟩ := hatom ha
    obtain ⟨ws, rfl, as, has, rfl, hend⟩ := happ (.app f a) hargs
    refine ⟨w ++ ws, by rw [List.append_assoc], a :: as, ?_, rfl, hend⟩
    rw [List.map_append]
    rw [following_append] at hw
    exact .cons hw has
  · rename_i hstart
    cases h
    exact ⟨[], rfl, [], .nil, rfl, startsAtom_eq_false_iff.mp (Bool.eq_false_iff.mpr hstart)⟩

theorem gives_term_succ (hatom : Gives SpellsAtom (atom stop fuel))
    (happ : ∀ f, Gives (SpellsArguments f) (application stop fuel f)) :
    Gives SpellsTerm (term stop (fuel + 1)) := by
  intro ts t rest h
  rw [term] at h
  obtain ⟨⟨f, ts₁⟩, hf, hargs⟩ := bind_ok h
  obtain ⟨w, rfl, hw⟩ := hatom hf
  obtain ⟨ws, rfl, as, has, rfl, hend⟩ := happ f hargs
  refine ⟨w ++ ws, by rw [List.append_assoc], ?_⟩
  rw [List.map_append]
  rw [following_append] at hw
  exact .application hw has hend

end Terms

/-- Everything that the parser reads is derivable, whatever the bound of its depth. -/
theorem gives_grammar (stop fuel : Nat) :
    Gives SpellsTerm (term stop fuel) ∧
      (∀ f, Gives (SpellsArguments f) (application stop fuel f)) ∧
      Gives SpellsAtom (atom stop fuel) := by
  induction fuel with
  | zero =>
    refine ⟨?_, fun f => ?_, ?_⟩
    · intro ts t rest h
      rw [term] at h
      exact gives_refuse _ stop .term h
    · intro ts t rest h
      rw [application] at h
      exact gives_refuse _ stop .term h
    · intro ts t rest h
      rw [atom] at h
      exact gives_refuse _ stop .term h
  | succ fuel ih =>
    obtain ⟨hterm, happ, hatom⟩ := ih
    exact ⟨gives_term_succ hatom happ, gives_application_succ hatom happ,
      gives_atom_succ hterm hatom⟩

/-! ### What is derivable is read -/

theorem ok_bind {ε α β : Type} (a : α) (f : α → Except ε β) :
    ((Except.ok a : Except ε α) >>= f) = f a := rfl

theorem expect_cons (stop : Nat) (wanted : Expected) (token : Token) (offset : Nat)
    (rest : List Lexeme) : expect stop token wanted (⟨token, offset⟩ :: rest) = .ok rest := by
  rw [expect, if_pos rfl]

section Forms

variable {stop : Nat} {part operand : Reader} {ts ts₁ ts₂ rest : List Lexeme} {a b c : Term}

theorem unary_of_operand (build : Term → Term) (ha : operand ts = .ok (a, rest)) :
    unary operand build ts = .ok (build a, rest) := by
  rw [unary, ha]
  rfl

theorem binary_of_operands (build : Term → Term → Term) (ha : operand ts = .ok (a, ts₁))
    (hb : operand ts₁ = .ok (b, rest)) : binary operand build ts = .ok (build a b, rest) := by
  simp only [binary, ha, hb, ok_bind]
  rfl

theorem enclosed_of_part {offset : Nat} (ha : part ts = .ok (a, ⟨.rparen, offset⟩ :: rest)) :
    enclosed stop part ts = .ok (a, rest) := by
  simp only [enclosed, ha, expect_cons, ok_bind]
  rfl

theorem abstraction_of_part {o₁ o₂ : Nat} (x : String) (hb : part ts = .ok (b, rest)) :
    abstraction stop part (⟨.ident x, o₁⟩ :: ⟨.dot, o₂⟩ :: ts) = .ok (.abs x b, rest) := by
  simp only [abstraction, ident, expect_cons, hb, ok_bind]
  rfl

theorem binding_of_part {o₁ o₂ : Nat} (x : String) (ha : part ts = .ok (a, rest)) :
    binding stop part (⟨.ident x, o₁⟩ :: ⟨.equals, o₂⟩ :: ts) = .ok (x, a, rest) := by
  simp only [binding, ident, expect_cons, ha, ok_bind]
  rfl

theorem letTerm_of_parts {o₁ o₂ o₃ : Nat} (x : String)
    (ha : part ts = .ok (a, ⟨.keyword .inKw, o₃⟩ :: ts₁)) (hb : part ts₁ = .ok (b, rest)) :
    letTerm stop part (⟨.ident x, o₁⟩ :: ⟨.equals, o₂⟩ :: ts) = .ok (.letIn x a b, rest) := by
  simp only [letTerm, binding_of_part x ha, expectKeyword, expect_cons, hb, ok_bind]
  rfl

theorem branch_of_parts {o₁ o₂ : Nat} (build : Term → Term → Term → Term)
    (hc : part ts = .ok (c, ⟨.keyword .thenKw, o₁⟩ :: ts₁))
    (ha : part ts₁ = .ok (a, ⟨.keyword .elseKw, o₂⟩ :: ts₂)) (hb : part ts₂ = .ok (b, rest)) :
    branch stop part build ts = .ok (build c a b, rest) := by
  simp only [branch, hc, ha, hb, expectKeyword, expect_cons, ok_bind]
  rfl

theorem atom_of_unary {fuel : Nat} {l : Lexeme} {build : Term → Term} (sign : Unary l.token build)
    (ha : atom stop fuel ts = .ok (a, rest)) :
    atom stop (fuel + 1) (l :: ts) = .ok (build a, rest) := by
  obtain ⟨token, offset⟩ := l
  cases sign <;> exact unary_of_operand _ ha

theorem atom_of_binary {fuel : Nat} {l : Lexeme} {build : Term → Term → Term}
    (sign : Binary l.token build) (ha : atom stop fuel ts = .ok (a, ts₁))
    (hb : atom stop fuel ts₁ = .ok (b, rest)) :
    atom stop (fuel + 1) (l :: ts) = .ok (build a b, rest) := by
  obtain ⟨token, offset⟩ := l
  cases sign <;> exact binary_of_operands _ ha hb

theorem atom_of_branch {fuel offset o₁ o₂ : Nat} {k : Keyword}
    {build : Term → Term → Term → Term} (sign : Branching k build)
    (hc : term stop fuel ts = .ok (c, ⟨.keyword .thenKw, o₁⟩ :: ts₁))
    (ha : term stop fuel ts₁ = .ok (a, ⟨.keyword .elseKw, o₂⟩ :: ts₂))
    (hb : term stop fuel ts₂ = .ok (b, rest)) :
    atom stop (fuel + 1) (⟨.keyword k, offset⟩ :: ts) = .ok (build c a b, rest) := by
  cases sign <;> exact branch_of_parts _ hc ha hb

theorem integer_of_fits {digits : String} (offset : Nat) (fits : digitsValue digits < 2 ^ 63) :
    integer offset digits rest = .ok (.int (Int64.ofNat (digitsValue digits)), rest) := by
  rw [integer, literal?_eq, if_pos fits]
  rfl

end Forms

theorem map_token_eq_cons {ts : List Lexeme} {token : Token} {w : List Token}
    (h : ts.map Lexeme.token = token :: w) :
    ∃ offset ts', ts = ⟨token, offset⟩ :: ts' ∧ ts'.map Lexeme.token = w := by
  obtain ⟨⟨_, offset⟩, ts', rfl, rfl, htail⟩ := List.map_eq_cons_iff.mp h
  exact ⟨offset, ts', rfl, htail⟩

theorem map_token_eq_append_cons {ts : List Lexeme} {w w' : List Token} {token : Token}
    (h : ts.map Lexeme.token = w ++ token :: w') :
    ∃ ts₁ offset ts₂, ts = ts₁ ++ ⟨token, offset⟩ :: ts₂ ∧ ts₁.map Lexeme.token = w ∧
      ts₂.map Lexeme.token = w' := by
  obtain ⟨ts₁, ts₂, rfl, hw, h⟩ := List.map_eq_append_iff.mp h
  obtain ⟨offset, ts₂, rfl, hw'⟩ := map_token_eq_cons h
  exact ⟨ts₁, offset, ts₂, rfl, hw, hw'⟩

/-- The reader takes everything that is a spelling in the sense of `G`, as long as there
    is room for it.  Every token pays for at most a term and an atom, so it counts twice. -/
def Takes (G : Token → List Token → Term → Prop) (p : Reader) (room : Nat) : Prop :=
  ∀ ⦃w : List Lexeme⦄ ⦃t : Term⦄ ⦃rest : List Lexeme⦄, 2 * w.length < room →
    G (following rest) (w.map Lexeme.token) t → p (w ++ rest) = .ok (t, rest)

section Terms

variable {stop fuel : Nat}

theorem takes_atom_succ (hterm : Takes SpellsTerm (term stop fuel) (fuel + 1))
    (hatom : Takes SpellsAtom (atom stop fuel) (fuel + 2)) :
    Takes SpellsAtom (atom stop (fuel + 1)) (fuel + 3) := by
  intro w t rest hroom h
  generalize hwords : w.map Lexeme.token = words at h
  obtain ⟨token, words', rfl, -⟩ := h.starts
  obtain ⟨o, w, rfl, hw⟩ := map_token_eq_cons hwords
  clear hwords
  rw [List.length_cons] at hroom
  -- the tokens of an atom select its case, and the offsets follow from their positions
  cases h with
  | ident x =>
    obtain rfl := List.map_eq_nil_iff.mp hw
    rfl
  | int fits =>
    obtain rfl := List.map_eq_nil_iff.mp hw
    exact integer_of_fits o fits
  | unit =>
    obtain rfl := List.map_eq_nil_iff.mp hw
    rfl
  | nil =>
    obtain rfl := List.map_eq_nil_iff.mp hw
    rfl
  | enclosed inner =>
    obtain ⟨w₁, o', ts, rfl, rfl, hnil⟩ := map_token_eq_append_cons hw
    obtain rfl := List.map_eq_nil_iff.mp hnil
    rw [List.length_append] at hroom
    rw [List.cons_append, List.append_assoc]
    exact enclosed_of_part (hterm (by omega) inner)
  | lambda sign x body =>
    obtain ⟨o₁, w, rfl, hdot⟩ := map_token_eq_cons hw
    obtain ⟨o₂, w, rfl, rfl⟩ := map_token_eq_cons hdot
    simp only [List.length_cons] at hroom
    exact abstraction_of_part x (hterm (by omega) body)
  | letIn x value body =>
    obtain ⟨o₁, w, rfl, hequals⟩ := map_token_eq_cons hw
    obtain ⟨o₂, w, rfl, hparts⟩ := map_token_eq_cons hequals
    obtain ⟨w₁, o₃, w₂, rfl, rfl, rfl⟩ := map_token_eq_append_cons hparts
    simp only [List.length_cons, List.length_append] at hroom
    simp only [List.cons_append, List.append_assoc]
    exact letTerm_of_parts x (hterm (by omega) value) (hterm (by omega) body)
  | branch sign cond first second =>
    obtain ⟨w₁, o₁, w, rfl, rfl, hbranches⟩ := map_token_eq_append_cons hw
    obtain ⟨w₂, o₂, w₃, rfl, rfl, rfl⟩ := map_token_eq_append_cons hbranches
    simp only [List.length_cons, List.length_append] at hroom
    simp only [List.cons_append, List.append_assoc]
    exact atom_of_branch sign (hterm (by omega) cond) (hterm (by omega) first)
      (hterm (by omega) second)
  | unary sign operand =>
    obtain rfl := hw
    exact atom_of_unary sign (hatom (by omega) operand)
  | binary sign left right =>
    obtain ⟨w₁, w₂, rfl, rfl, rfl⟩ := List.map_eq_append_iff.mp hw
    rw [List.length_append] at hroom
    rw [← following_append] at left
    rw [List.cons_append, List.append_assoc]
    exact atom_of_binary sign (hatom (by omega) left) (hatom (by omega) right)

theorem takes_application_succ (hatom : Takes SpellsAtom (atom stop fuel) (fuel + 2))
    (happ : ∀ f, Takes (SpellsArguments f) (application stop fuel f) fuel) (f : Term) :
    Takes (SpellsArguments f) (application stop (fuel + 1) f) (fuel + 1) := by
  intro w t rest hroom h
  obtain ⟨as, h, rfl, hend⟩ := h
  generalize hw : w.map Lexeme.token = words at h
  rw [application, front_token]
  cases h with
  | nil =>
    obtain rfl := List.map_eq_nil_iff.mp hw
    rw [List.nil_append, startsAtom_eq_false_iff.mpr hend]
    rfl
  | cons first others =>
    obtain ⟨w₁, w₂, rfl, rfl, rfl⟩ := List.map_eq_append_iff.mp hw
    obtain ⟨token, words, hstart, hopen⟩ := first.starts
    have hpos := first.length_pos
    rw [List.length_map] at hpos
    rw [List.length_append] at hroom
    have hgo : startsAtom token = true := by
      rw [← Bool.not_eq_false, startsAtom_eq_false_iff]
      exact hopen
    rw [List.append_assoc, following_append, hstart, ahead_cons, if_pos hgo]
    rw [← following_append] at first
    rw [hatom (by omega) first]
    exact happ _ (by omega) ⟨_, others, rfl, hend⟩

theorem takes_term_succ (hatom : Takes SpellsAtom (atom stop fuel) (fuel + 2))
    (happ : ∀ f, Takes (SpellsArguments f) (application stop fuel f) fuel) :
    Takes SpellsTerm (term stop (fuel + 1)) (fuel + 2) := by
  intro w t rest hroom h
  generalize hw : w.map Lexeme.token = words at h
  cases h with
  | application func args maximal =>
    obtain ⟨w₁, w₂, rfl, rfl, rfl⟩ := List.map_eq_append_iff.mp hw
    have hpos := func.length_pos
    rw [List.length_map] at hpos
    rw [List.length_append] at hroom
    rw [← following_append] at func
    rw [term, List.append_assoc, hatom (by omega) func]
    exact happ _ (by omega) ⟨_, args, rfl, maximal⟩

end Terms

/-- Everything derivable is read, if the bound of the depth leaves room for it. -/
theorem takes_grammar (stop fuel : Nat) :
    Takes SpellsTerm (term stop fuel) (fuel + 1) ∧
      (∀ f, Takes (SpellsArguments f) (application stop fuel f) fuel) ∧
      Takes SpellsAtom (atom stop fuel) (fuel + 2) := by
  induction fuel with
  | zero =>
    refine ⟨?_, fun f => ?_, ?_⟩
    · intro w t rest hroom h
      have hpos := h.length_pos
      rw [List.length_map] at hpos
      omega
    · intro w t rest hroom h
      omega
    · intro w t rest hroom h
      have hpos := h.length_pos
      rw [List.length_map] at hpos
      omega
  | succ fuel ih =>
    obtain ⟨hterm, happ, hatom⟩ := ih
    exact ⟨takes_term_succ hatom happ, takes_application_succ hatom happ,
      takes_atom_succ hterm hatom⟩

/-! ### The parser and its grammar -/

/-- The bound that the parser starts with leaves room for every derivation. -/
theorem readTerm_iff_derives {stop : Nat} {ts rest : List Lexeme} {t : Term} :
    readTerm stop ts = .ok (t, rest) ↔ Derives ts t rest := by
  constructor
  · intro h
    exact (gives_grammar stop (depthFor ts)).1 h
  · rintro ⟨w, rfl, h⟩
    refine (takes_grammar stop _).1 ?_ h
    rw [depthFor, List.length_append]
    omega

theorem derives_subsingleton (ts : List Lexeme) :
    {p : Term × List Lexeme | Derives ts p.1 p.2}.Subsingleton := by
  rintro ⟨t, rest⟩ h ⟨t', rest'⟩ h'
  have hread : readTerm 0 ts = .ok (t, rest) := readTerm_iff_derives.mpr h
  have hread' : readTerm 0 ts = .ok (t', rest') := readTerm_iff_derives.mpr h'
  exact Except.ok.inj (hread.symm.trans hread')

theorem finish_eq_ok_iff {stop : Nat} {ts : List Lexeme} : finish stop ts = .ok () ↔ ts = [] := by
  cases ts with
  | nil => simp [finish]
  | cons l ts => simp [finish, refuse]

/-- Reads tokens that are a single term, to the end. -/
def wholeTerm (stop : Nat) (ts : List Lexeme) : Except ParseError Term := do
  let (t, rest) ← readTerm stop ts
  finish stop rest
  return t

theorem wholeTerm_iff_spells {stop : Nat} {ts : List Lexeme} {t : Term} :
    wholeTerm stop ts = .ok t ↔ SpellsTerm .eof (ts.map Lexeme.token) t := by
  constructor
  · intro h
    obtain ⟨⟨t', rest⟩, hread, h⟩ := bind_ok h
    obtain ⟨u, hfinish, h⟩ := bind_ok h
    cases h
    obtain rfl := finish_eq_ok_iff.mp hfinish
    obtain ⟨w, rfl, hw⟩ := readTerm_iff_derives.mp hread
    rwa [List.append_nil]
  · intro h
    have hread : readTerm stop ts = .ok (t, []) :=
      readTerm_iff_derives.mpr ⟨ts, (List.append_nil ts).symm, h⟩
    simp only [wholeTerm, hread, ok_bind, finish_eq_ok_iff.mpr]
    rfl

/-- Parsing a term is scanning, and then reading all tokens. -/
theorem parseTerm_eq (source : List Glyph) :
    parseTerm source = scan source >>= wholeTerm (Glyph.widths source) := rfl

theorem parseTerm_iff_spells {source : List Glyph} {t : Term} :
    parseTerm source = .ok t ↔
      ∃ ts, scan source = .ok ts ∧ SpellsTerm .eof (ts.map Lexeme.token) t := by
  rw [parseTerm_eq]
  constructor
  · intro h
    obtain ⟨ts, hscan, h⟩ := bind_ok h
    exact ⟨ts, hscan, wholeTerm_iff_spells.mp h⟩
  · rintro ⟨ts, hscan, h⟩
    rw [hscan, ok_bind]
    exact wholeTerm_iff_spells.mpr h

/-- The parser accepts its grammar and nothing else.  From any tokens it reads a term
    and leaves a rest exactly if the tokens derive this term before this rest, no two
    pairs of a term and a rest are derivable, and a source parses as a term exactly if
    its tokens, all of them, spell the term. -/
theorem reads_exactly_grammar :
    (∀ (stop : Nat) (ts : List Lexeme) (t : Term) (rest : List Lexeme),
      readTerm stop ts = .ok (t, rest) ↔ Derives ts t rest) ∧
    (∀ ts : List Lexeme, {p : Term × List Lexeme | Derives ts p.1 p.2}.Subsingleton) ∧
    (∀ (source : List Glyph) (t : Term), parseTerm source = .ok t ↔
      ∃ ts, scan source = .ok ts ∧ SpellsTerm .eof (ts.map Lexeme.token) t) := by
  refine ⟨?_, derives_subsingleton, ?_⟩
  · intro stop ts t rest
    exact readTerm_iff_derives
  · intro source t
    exact parseTerm_iff_spells

end Grammar

end MiniML
