/-
  MiniML/Proofs/Eval/Reduction.lean
  =================================
  **What a step can do** — a step contracts one part of the term, and that part
  stands in evaluated position: inside `Frame`s only.  Properties of steps are
  proved by induction on `Reduces`, one case for each rule and one for frames.

  What many steps do is said with `after`, which counts them.  A step that leaves the
  term as it was leaves the store as it was too (`Config.eq_of_step?`), and so leads
  to where it started for any count.
-/
import MiniML.Eval.Step

namespace MiniML

/-! ### Rules and frames -/

/-- The rules of the single forms. -/
inductive Contracts (s : Store) : Term → Config → Prop where
  | beta (x : String) (b a : Term) : Contracts s (.app (.abs x b) a) ⟨.subst x a b, s⟩
  | unfold (f : String) (b a : Term) :
      Contracts s (.app (.fix (.abs f b)) a) ⟨.app (.subst f (.fix (.abs f b)) b) a, s⟩
  | letIn (x : String) {v : Term} (b : Term) (hv : v.isValue = true) :
      Contracts s (.letIn x v b) ⟨.subst x v b, s⟩
  | head (h t : Term) : Contracts s (.head (.cons h t)) ⟨h, s⟩
  | tail (h t : Term) : Contracts s (.tail (.cons h t)) ⟨t, s⟩
  | add (m n : Int64) : Contracts s (.add (.int m) (.int n)) ⟨.int (m + n), s⟩
  | sub (m n : Int64) : Contracts s (.sub (.int m) (.int n)) ⟨.int (m - n), s⟩
  | ifZero (n : Int64) (t e : Term) :
      Contracts s (.ifZero (.int n) t e) ⟨if n = 0 then t else e, s⟩
  | ifNil (t e : Term) : Contracts s (.ifEmpty .nil t e) ⟨t, s⟩
  | ifCons (h l t e : Term) : Contracts s (.ifEmpty (.cons h l) t e) ⟨e, s⟩
  | mkRef {v : Term} (hv : v.isValue = true) :
      Contracts s (.mkRef v) ⟨.region (s.alloc v).1, (s.alloc v).2⟩
  | deref {i : Int64} {v : Term} (hi : s.get? i = some v) : Contracts s (.deref (.region i)) ⟨v, s⟩
  | assign (i : Int64) {v : Term} (hv : v.isValue = true) :
      Contracts s (.assign (.region i) v) ⟨.unit, s.set i v⟩

/-- A form with a hole in an evaluated position. -/
inductive Frame where
  | func (arg : Term)
  | arg (func : Term)
  | value (name : String) (body : Term)
  | consHead (tail : Term)
  | consTail (head : Term)
  | head
  | tail
  | addLeft (right : Term)
  | addRight (left : Term)
  | subLeft (right : Term)
  | subRight (left : Term)
  | ifZero (zero other : Term)
  | ifEmpty (empty other : Term)
  | fix
  | mkRef
  | deref
  | assignRef (value : Term)
  | assignValue (ref : Term)

/-- The form with its hole filled. -/
def Frame.fill : Frame → Term → Term
  | .func a, t => .app t a
  | .arg f, t => .app f t
  | .value x b, t => .letIn x t b
  | .consHead l, t => .cons t l
  | .consTail h, t => .cons h t
  | .head, t => .head t
  | .tail, t => .tail t
  | .addLeft r, t => .add t r
  | .addRight l, t => .add l t
  | .subLeft r, t => .sub t r
  | .subRight l, t => .sub l t
  | .ifZero a b, t => .ifZero t a b
  | .ifEmpty a b, t => .ifEmpty t a b
  | .fix, t => .fix t
  | .mkRef, t => .mkRef t
  | .deref, t => .deref t
  | .assignRef v, t => .assign t v
  | .assignValue r, t => .assign r t

/-- A step: a rule at a part of the term that stands in frames only. -/
inductive Reduces (s : Store) : Term → Config → Prop where
  | contract {t : Term} {c : Config} : Contracts s t c → Reduces s t c
  | inside (K : Frame) {t : Term} {c : Config} : Reduces s t c →
      Reduces s (K.fill t) (c.within K.fill)

section Rules

variable {s : Store} {t u v w : Term} {c : Config}

theorem contracts_of_beta (h : Rule.beta? t u = some w) : Contracts s (.app t u) ⟨w, s⟩ := by
  unfold Rule.beta? at h
  split at h
  · cases h
    exact .beta ..
  · cases h
    exact .unfold ..
  · cases h

theorem contracts_of_head (h : Rule.head? t = some w) : Contracts s (.head t) ⟨w, s⟩ := by
  unfold Rule.head? at h
  split at h
  · cases h
    exact .head ..
  · cases h

theorem contracts_of_tail (h : Rule.tail? t = some w) : Contracts s (.tail t) ⟨w, s⟩ := by
  unfold Rule.tail? at h
  split at h
  · cases h
    exact .tail ..
  · cases h

theorem contracts_of_ifZero (h : Rule.ifZero? t u v = some w) :
    Contracts s (.ifZero t u v) ⟨w, s⟩ := by
  unfold Rule.ifZero? at h
  split at h
  · cases h
    exact .ifZero ..
  · cases h

theorem contracts_of_ifEmpty (h : Rule.ifEmpty? t u v = some w) :
    Contracts s (.ifEmpty t u v) ⟨w, s⟩ := by
  unfold Rule.ifEmpty? at h
  split at h
  · cases h
    exact .ifNil ..
  · cases h
    exact .ifCons ..
  · cases h

theorem operands_of_arith {op : Int64 → Int64 → Int64} (h : Rule.arith? op t u = some w) :
    ∃ m n, t = .int m ∧ u = .int n ∧ w = .int (op m n) := by
  unfold Rule.arith? at h
  split at h
  · cases h
    exact ⟨_, _, rfl, rfl, rfl⟩
  · cases h

theorem contracts_of_mkRef (h : Rule.mkRef? s t = some c) : Contracts s (.mkRef t) c := by
  unfold Rule.mkRef? at h
  split at h
  · rename_i hv
    cases h
    exact .mkRef hv
  · cases h

theorem contracts_of_deref (h : Rule.deref? s t = some w) : Contracts s (.deref t) ⟨w, s⟩ := by
  unfold Rule.deref? at h
  split at h
  · exact .deref h
  · cases h

theorem contracts_of_assign (h : Rule.assign? s t u = some c) : Contracts s (.assign t u) c := by
  unfold Rule.assign? at h
  split at h
  · split at h
    · rename_i hv
      cases h
      exact .assign _ hv
    · cases h
  · cases h

end Rules

/-- A form whose part steps steps with it; otherwise it does what it does next. -/
theorem step_part {o : Option Config} {f : Term → Term} {rest : Option Config} {c : Config}
    (h : (match o with
      | some d => some (d.within f)
      | none => rest) = some c) : (∃ d, o = some d ∧ c = d.within f) ∨ rest = some c := by
  cases o with
  | some d => exact .inl ⟨d, rfl, (Option.some.inj h).symm⟩
  | none => exact .inr h

/-- A form that does not step has a part that does not. -/
theorem step_part_eq_none {o rest : Option Config} {f : Term → Term}
    (h : (match o with
      | some d => some (d.within f)
      | none => rest) = none) : o = none ∧ rest = none := by
  cases o with
  | some d => cases h
  | none => exact ⟨rfl, h⟩

theorem Reduces.of_step {s : Store} {t : Term} {c : Config} (h : step s t = some c) :
    Reduces s t c := by
  induction t generalizing c with
  | var | abs | int | nil | unit | region => exact absurd h (by simp [step])
  -- each case: a part steps inside its frame, or all of them are still and the form contracts
  | app f a ihf iha =>
    rw [step] at h
    split at h
    · rename_i hbeta
      cases h
      exact .contract (contracts_of_beta hbeta)
    · obtain ⟨d, hd, rfl⟩ | h := step_part h
      · exact (ihf hd).inside (.func a)
      · obtain ⟨d, hd, rfl⟩ := Option.map_eq_some_iff.mp h
        exact (iha hd).inside (.arg f)
  | letIn x v b ihv _ =>
    rw [step] at h
    obtain ⟨d, hd, rfl⟩ | h := step_part h
    · exact (ihv hd).inside (.value x b)
    · split at h
      · rename_i hv
        cases h
        exact .contract (.letIn x b hv)
      · cases h
  | cons a l iha ihl =>
    rw [step] at h
    obtain ⟨d, hd, rfl⟩ | h := step_part h
    · exact (iha hd).inside (.consHead l)
    · obtain ⟨d, hd, rfl⟩ := Option.map_eq_some_iff.mp h
      exact (ihl hd).inside (.consTail a)
  | head l ih =>
    rw [step] at h
    obtain ⟨d, hd, rfl⟩ | h := step_part h
    · exact (ih hd).inside .head
    · obtain ⟨w, hw, rfl⟩ := Option.map_eq_some_iff.mp h
      exact .contract (contracts_of_head hw)
  | tail l ih =>
    rw [step] at h
    obtain ⟨d, hd, rfl⟩ | h := step_part h
    · exact (ih hd).inside .tail
    · obtain ⟨w, hw, rfl⟩ := Option.map_eq_some_iff.mp h
      exact .contract (contracts_of_tail hw)
  | add l r ihl ihr =>
    rw [step] at h
    obtain ⟨d, hd, rfl⟩ | h := step_part h
    · exact (ihl hd).inside (.addLeft r)
    obtain ⟨d, hd, rfl⟩ | h := step_part h
    · exact (ihr hd).inside (.addRight l)
    · obtain ⟨w, hw, rfl⟩ := Option.map_eq_some_iff.mp h
      obtain ⟨m, n, rfl, rfl, rfl⟩ := operands_of_arith hw
      exact .contract (.add m n)
  | sub l r ihl ihr =>
    rw [step] at h
    obtain ⟨d, hd, rfl⟩ | h := step_part h
    · exact (ihl hd).inside (.subLeft r)
    obtain ⟨d, hd, rfl⟩ | h := step_part h
    · exact (ihr hd).inside (.subRight l)
    · obtain ⟨w, hw, rfl⟩ := Option.map_eq_some_iff.mp h
      obtain ⟨m, n, rfl, rfl, rfl⟩ := operands_of_arith hw
      exact .contract (.sub m n)
  | ifZero b t e ih _ _ =>
    rw [step] at h
    obtain ⟨d, hd, rfl⟩ | h := step_part h
    · exact (ih hd).inside (.ifZero t e)
    · obtain ⟨w, hw, rfl⟩ := Option.map_eq_some_iff.mp h
      exact .contract (contracts_of_ifZero hw)
  | ifEmpty b t e ih _ _ =>
    rw [step] at h
    obtain ⟨d, hd, rfl⟩ | h := step_part h
    · exact (ih hd).inside (.ifEmpty t e)
    · obtain ⟨w, hw, rfl⟩ := Option.map_eq_some_iff.mp h
      exact .contract (contracts_of_ifEmpty hw)
  -- `step` reduces below `fix` and stops there: the unfolding belongs to `app`
  | fix f ih =>
    obtain ⟨d, hd, rfl⟩ := Option.map_eq_some_iff.mp h
    exact (ih hd).inside .fix
  | mkRef e ih =>
    rw [step] at h
    obtain ⟨d, hd, rfl⟩ | h := step_part h
    · exact (ih hd).inside .mkRef
    · exact .contract (contracts_of_mkRef h)
  | deref e ih =>
    rw [step] at h
    obtain ⟨d, hd, rfl⟩ | h := step_part h
    · exact (ih hd).inside .deref
    · obtain ⟨w, hw, rfl⟩ := Option.map_eq_some_iff.mp h
      exact .contract (contracts_of_deref hw)
  | assign r v ihr ihv =>
    rw [step] at h
    obtain ⟨d, hd, rfl⟩ | h := step_part h
    · exact (ihr hd).inside (.assignRef v)
    obtain ⟨d, hd, rfl⟩ | h := step_part h
    · exact (ihv hd).inside (.assignValue r)
    · exact .contract (contracts_of_assign h)

/-! ### Steps that change nothing -/

theorem Frame.size_fill_lt {t u : Term} (K : Frame) (h : t.size < u.size) :
    (K.fill t).size < (K.fill u).size := by
  cases K <;> simp only [fill, Term.size] <;> omega

/-- A step that changes the store writes one region, and makes the term smaller. -/
theorem Reduces.store_eq_or_set {s : Store} {t : Term} {c : Config} (h : Reduces s t c) :
    c.store = s ∨ c.term.size < t.size ∧ ∃ i v, c.store = s.set i v := by
  induction h with
  | contract h =>
    cases h with
    | @mkRef v hv =>
      have hpos := v.size_pos
      exact .inr ⟨by simp only [Term.size]; omega, s.next, v, rfl⟩
    | @assign i v hv => exact .inr ⟨by simp only [Term.size]; omega, i, v, rfl⟩
    | _ => exact .inl rfl
  | inside K _ ih => exact ih.imp_right (And.imp_left K.size_fill_lt)

theorem Config.eq_of_step? {c c' : Config} (h : c.step? = some c') (hsame : c'.term = c.term) :
    c' = c := by
  obtain hstore | ⟨hlt, -⟩ := (Reduces.of_step h).store_eq_or_set
  · cases c'
    cases c
    simp_all
  · rw [hsame] at hlt
    exact absurd hlt (Nat.lt_irrefl _)

/-! ### Many steps -/

/-- What `n` steps lead to, if there are so many. -/
def after {α : Type} (next : α → Option α) : Nat → α → Option α
  | 0, a => some a
  | n + 1, a => (next a).bind (after next n)

theorem after_add {α : Type} (next : α → Option α) (m n : Nat) (a : α) :
    after next (m + n) a = (after next m a).bind (after next n) := by
  induction m generalizing a with
  | zero => rw [Nat.zero_add, after, Option.bind_some]
  | succ m ih =>
    rw [Nat.succ_add, after, after, Option.bind_assoc]
    exact congrArg _ (funext ih)

theorem after_of_fixed {α : Type} {next : α → Option α} {a : α} (h : next a = some a) (n : Nat) :
    after next n a = some a := by
  induction n with
  | zero => rfl
  | succ n ih => rw [after, h, Option.bind_some, ih]

end MiniML
