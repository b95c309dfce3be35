/-
  MiniML/Proofs/Session/Scoping.lean
  ==================================
  **Scoping of session values** — before a statement is evaluated its free variables
  are replaced by the values of their bindings, one binding after the other, the
  latest first.

  This is the simultaneous replacement (`Term.substAll`) as long as no value that is put
  in has a free variable that an earlier binding binds (`Intact`): a value that has one
  is put in first, and the replacement of the earlier binding then reaches into it.
  Such values come about when a variable is free in a value, is bound afterwards, and
  the value is bound once more.
-/
import MiniML.Proofs.Eval.Nameless
import MiniML.Proofs.Session.Safety

namespace MiniML

namespace Term

/-! ### Simultaneous replacement -/

/-- Replaces the free variables that have a value, all at once: nothing is replaced in
    the values.  Binders keep their names. -/
@[grind =] def substAll (σ : String → Option Term) : Term → Term
  | .var x => (σ x).getD (.var x)
  | .abs x b => .abs x (b.substAll (Function.update σ x none))
  | .app f a => .app (f.substAll σ) (a.substAll σ)
  | .letIn x v b => .letIn x (v.substAll σ) (b.substAll (Function.update σ x none))
  | .int n => .int n
  | .nil => .nil
  | .cons h t => .cons (h.substAll σ) (t.substAll σ)
  | .head l => .head (l.substAll σ)
  | .tail l => .tail (l.substAll σ)
  | .add l r => .add (l.substAll σ) (r.substAll σ)
  | .sub l r => .sub (l.substAll σ) (r.substAll σ)
  | .ifZero c t e => .ifZero (c.substAll σ) (t.substAll σ) (e.substAll σ)
  | .ifEmpty c t e => .ifEmpty (c.substAll σ) (t.substAll σ) (e.substAll σ)
  | .fix f => .fix (f.substAll σ)
  | .unit => .unit
  | .mkRef e => .mkRef (e.substAll σ)
  | .deref e => .deref (e.substAll σ)
  | .assign r v => .assign (r.substAll σ) (v.substAll σ)
  | .region i => .region i

theorem update_none_eq_none {σ : String → Option Term} {x y : String} (h : y ≠ x → σ y = none) :
    Function.update σ x none y = none := by
  by_cases hyx : y = x
  · rw [hyx, Function.update_self]
  · rw [Function.update_of_ne hyx, h hyx]

theorem substAll_eq_self {σ : String → Option Term} {t : Term} (h : ∀ x ∈ t.freeVars, σ x = none) :
    t.substAll σ = t := by
  induction t generalizing σ with
  | var x => rw [substAll, h x (mem_freeVars_var.mpr rfl), Option.getD_none]
  | int | nil | unit | region => rfl
  | abs y b ih =>
    rw [substAll, ih fun x hx => update_none_eq_none fun hxy => ?_]
    exact h x (mem_freeVars_abs.mpr ⟨hxy, hx⟩)
  | letIn y v b ihv ihb =>
    rw [substAll, ihv fun x hx => h x (mem_freeVars_letIn.mpr (.inl hx)),
      ihb fun x hx => update_none_eq_none fun hxy => ?_]
    exact h x (mem_freeVars_letIn.mpr (.inr ⟨hxy, hx⟩))
  | head b ih | tail b ih | fix b ih | mkRef b ih | deref b ih => rw [substAll, ih h]
  | app a b ih ih' | cons a b ih ih' | add a b ih ih' | sub a b ih ih' | assign a b ih ih' =>
    rw [substAll, ih fun x hx => h x (by simp [freeVars, hx]),
      ih' fun x hx => h x (by simp [freeVars, hx])]
  | ifZero a b c ih ih' ih'' | ifEmpty a b c ih ih' ih'' =>
    rw [substAll, ih fun x hx => h x (by simp [freeVars, hx]),
      ih' fun x hx => h x (by simp [freeVars, hx]), ih'' fun x hx => h x (by simp [freeVars, hx])]

/-- One replacement before the others is one more of them, if the others do not reach
    into what it puts in. -/
theorem substAll_subst {σ : String → Option Term} {x : String} {a t : Term}
    (h : x ∈ t.freeVars → ∀ y ∈ a.freeVars, σ y = none) :
    (subst x a t).substAll σ = t.substAll (Function.update σ x (some a)) := by
  -- below a binder of `x` nothing is put in, below another one the claim is the same
  have hbinder : ∀ {σ : String → Option Term} {y : String} {b : Term},
      (y ≠ x → (subst x a b).substAll (Function.update σ y none) =
        b.substAll (Function.update (Function.update σ y none) x (some a))) →
      (if y = x then b else subst x a b).substAll (Function.update σ y none) =
        b.substAll (Function.update (Function.update σ x (some a)) y none) := by
    intro σ y b ih
    by_cases hyx : y = x
    · rw [if_pos hyx, hyx, Function.update_idem]
    · rw [if_neg hyx, ih hyx, Function.update_comm hyx]
  induction t generalizing σ with
  | var y =>
    rw [subst, substAll]
    by_cases hyx : y = x
    · rw [if_pos hyx, hyx, Function.update_self, Option.getD_some]
      exact substAll_eq_self (h (mem_freeVars_var.mpr hyx.symm))
    · rw [if_neg hyx, substAll, Function.update_of_ne hyx]
  | int | nil | unit | region => rfl
  | abs y b ih =>
    rw [subst_abs, substAll, substAll, hbinder fun hyx => ih fun hx z hz => ?_]
    exact update_none_eq_none fun _ => h (mem_freeVars_abs.mpr ⟨Ne.symm hyx, hx⟩) z hz
  | letIn y v b ihv ihb =>
    rw [subst, substAll, substAll, ihv fun hx => h (mem_freeVars_letIn.mpr (.inl hx)),
      hbinder fun hyx => ihb fun hx z hz => ?_]
    exact update_none_eq_none fun _ =>
      h (mem_freeVars_letIn.mpr (.inr ⟨Ne.symm hyx, hx⟩)) z hz
  | head b ih | tail b ih | fix b ih | mkRef b ih | deref b ih =>
    rw [subst, substAll, substAll, ih h]
  | app b c ih ih' | cons b c ih ih' | add b c ih ih' | sub b c ih ih' | assign b c ih ih' =>
    rw [subst, substAll, substAll, ih fun hx => h (by simp [freeVars, hx]),
      ih' fun hx => h (by simp [freeVars, hx])]
  | ifZero b c d ih ih' ih'' | ifEmpty b c d ih ih' ih'' =>
    rw [subst, substAll, substAll, ih fun hx => h (by simp [freeVars, hx]),
      ih' fun hx => h (by simp [freeVars, hx]), ih'' fun hx => h (by simp [freeVars, hx])]

theorem mem_freeVars_substAll {σ : String → Option Term} {t v : Term} {x y : String}
    (hx : x ∈ t.freeVars) (hv : σ x = some v) (hy : y ∈ v.freeVars) (hbound : y ∉ t.boundNames) :
    y ∈ (t.substAll σ).freeVars := by
  induction t generalizing σ with
  | var z =>
    obtain rfl := mem_freeVars_var.mp hx
    rwa [substAll, hv]
  | int | nil | unit | region => exact absurd hx (by simp [freeVars])
  | abs z b ih =>
    obtain ⟨hxz, hx⟩ := mem_freeVars_abs.mp hx
    rw [boundNames, List.mem_cons, not_or] at hbound
    refine mem_freeVars_abs.mpr ⟨hbound.1, ih hx ?_ hbound.2⟩
    rwa [Function.update_of_ne hxz]
  | letIn z w b ihw ihb =>
    simp only [boundNames, List.mem_cons, List.mem_append, not_or] at hbound
    refine mem_freeVars_letIn.mpr ?_
    obtain hx | ⟨hxz, hx⟩ := mem_freeVars_letIn.mp hx
    · exact .inl (ihw hx hv hbound.2.1)
    · refine .inr ⟨hbound.1, ihb hx ?_ hbound.2.2⟩
      rwa [Function.update_of_ne hxz]
  | head b ih | tail b ih | fix b ih | mkRef b ih | deref b ih => exact ih hx hv hbound
  | app a b ih ih' | cons a b ih ih' | add a b ih ih' | sub a b ih ih' | assign a b ih ih' =>
    simp only [boundNames, List.mem_append, not_or] at hbound
    simp only [substAll, freeVars, Std.ExtTreeSet.mem_union_iff] at hx ⊢
    exact hx.imp (ih · hv hbound.1) (ih' · hv hbound.2)
  | ifZero a b c ih ih' ih'' | ifEmpty a b c ih ih' ih'' =>
    simp only [boundNames, List.mem_append, not_or] at hbound
    simp only [substAll, freeVars, Std.ExtTreeSet.mem_union_iff] at hx ⊢
    exact hx.imp (fun hx => hx.imp (ih · hv hbound.1.1) (ih' · hv hbound.1.2)) (ih'' · hv hbound.2)

theorem Denotable.isIdent {t : Term} (h : t.Denotable) {x : String} (hx : x ∈ t.freeVars) :
    IsIdent x := by
  induction t with
  | var y => exact mem_freeVars_var.mp hx ▸ h
  | int | nil | unit | region => exact absurd hx (by simp [freeVars])
  | abs y b ih => exact ih h.2 (mem_freeVars_abs.mp hx).2
  | letIn y v b ihv ihb => exact (mem_freeVars_letIn.mp hx).elim (ihv h.2.1) fun hx => ihb h.2.2 hx.2
  | head b ih | tail b ih | fix b ih | mkRef b ih | deref b ih => exact ih h hx
  | app a b ih ih' | cons a b ih ih' | add a b ih ih' | sub a b ih ih' | assign a b ih ih' =>
    simp only [freeVars, Std.ExtTreeSet.mem_union_iff] at hx
    exact hx.elim (ih h.1) (ih' h.2)
  | ifZero a b c ih ih' ih'' | ifEmpty a b c ih ih' ih'' =>
    simp only [freeVars, Std.ExtTreeSet.mem_union_iff] at hx
    exact hx.elim (fun hx => hx.elim (ih h.1) (ih' h.2.1)) (ih'' h.2.2)

end Term

/-- No identifier is a name that a session or an evaluation gives to a binder. -/
theorem IsIdent.ne_append {x stem : String} (h : IsIdent x) (hstem : stem = "_s" ∨ stem = "_v")
    (number : String) : x ≠ stem ++ number := by
  rintro rfl
  obtain heq | hhead := h
  · have hlen := congrArg (fun x => x.toList.length) heq
    rcases hstem with rfl | rfl <;> simp at hlen
  · rcases hstem with rfl | rfl <;> exact hhead (by simp)

namespace Session

/-! ### Closing a statement -/

/-- Puts the values of bindings in, one binding after the other. -/
def putIn (bs : List (String × Term)) (t : Term) : Term :=
  bs.foldl (fun t b => Term.subst b.1 b.2 t) t

theorem putIn_cons (x : String) (v : Term) (bs : List (String × Term)) (t : Term) :
    putIn ((x, v) :: bs) t = putIn bs (.subst x v t) := rfl

theorem close_fst (s : Session) (t : Term) :
    (s.close t).1 = putIn s.bindings (t.alphaConvert ∅ s.names).1 := rfl

/-- The value of the latest binding of `x` has no free variable that a binding before it
    binds. -/
def Intact : List (String × Term) → String → Prop
  | [], _ => True
  | (y, v) :: bs, x => if x = y then ∀ z ∈ v.freeVars, bs.lookup z = none else Intact bs x

theorem intact_of_unbound {bs : List (String × Term)} {x : String} (h : bs.lookup x = none) :
    Intact bs x := by
  induction bs with
  | nil => exact trivial
  | cons b bs ih =>
    obtain ⟨y, v⟩ := b
    have hxy : x ≠ y := by
      rintro rfl
      simp at h
    rw [List.lookup_cons, beq_false_of_ne hxy] at h
    rw [Intact, if_neg hxy]
    exact ih h

theorem lookup_cons_eq_none {bs : List (String × Term)} {x y : String} {v : Term}
    (h : ((y, v) :: bs).lookup x = none) : bs.lookup x = none := by
  rw [List.lookup_cons] at h
  split at h
  · cases h
  · exact h

theorem intact_of_lookup {bs : List (String × Term)} {x : String} {v : Term}
    (hv : bs.lookup x = some v) (h : ∀ y ∈ v.freeVars, bs.lookup y = none) : Intact bs x := by
  induction bs with
  | nil => exact trivial
  | cons b bs ih =>
    obtain ⟨y, w⟩ := b
    rw [Intact]
    by_cases hxy : x = y
    · rw [if_pos hxy]
      obtain rfl : w = v := by simpa [hxy] using hv
      exact fun z hz => lookup_cons_eq_none (h z hz)
    · rw [if_neg hxy]
      rw [List.lookup_cons, beq_false_of_ne hxy] at hv
      exact ih hv fun z hz => lookup_cons_eq_none (h z hz)

theorem lookup_cons_eq_update (y : String) (v : Term) (bs : List (String × Term)) :
    (fun x => ((y, v) :: bs).lookup x) = Function.update (fun x => bs.lookup x) y (some v) := by
  funext x
  by_cases hxy : x = y
  · simp [hxy]
  · rw [Function.update_of_ne hxy, List.lookup_cons, beq_false_of_ne hxy]

/-- One binding after the other, the latest first, is all bindings at once. -/
theorem putIn_eq_substAll {bs : List (String × Term)} {t : Term}
    (h : ∀ x ∈ t.freeVars, Intact bs x) : putIn bs t = t.substAll fun x => bs.lookup x := by
  induction bs generalizing t with
  | nil => exact (Term.substAll_eq_self fun _ _ => rfl).symm
  | cons b bs ih =>
    obtain ⟨y, v⟩ := b
    have hv : y ∈ t.freeVars → ∀ z ∈ v.freeVars, bs.lookup z = none := by
      intro hy
      have hintact := h y hy
      rwa [Intact, if_pos rfl] at hintact
    rw [putIn_cons, ih, Term.substAll_subst hv, lookup_cons_eq_update]
    -- a variable that came in with the value has no earlier binding
    intro x hx
    obtain ⟨hx, hxy⟩ | ⟨hx, hy⟩ := Term.mem_freeVars_subst hx
    · have hintact := h x hx
      rwa [Intact, if_neg hxy] at hintact
    · exact intact_of_unbound (hv hy x hx)

theorem putIn_eq_self {bs : List (String × Term)} {t : Term}
    (h : ∀ x ∈ t.freeVars, bs.lookup x = none) : putIn bs t = t := by
  rw [putIn_eq_substAll fun x hx => intact_of_unbound (h x hx), Term.substAll_eq_self h]

theorem putIn_app (bs : List (String × Term)) (f a : Term) :
    putIn bs (.app f a) = .app (putIn bs f) (putIn bs a) := by
  induction bs generalizing f a with
  | nil => rfl
  | cons b bs ih => exact ih _ _

theorem mem_freeVars_putIn {bs : List (String × Term)} {t : Term} {x : String}
    (h : x ∈ (putIn bs t).freeVars) :
    (x ∈ t.freeVars ∧ x ∉ bs.map Prod.fst) ∨ ∃ b ∈ bs, x ∈ b.2.freeVars := by
  induction bs generalizing t with
  | nil => exact .inl ⟨h, by simp⟩
  | cons b bs ih =>
    obtain ⟨hx, hnot⟩ | ⟨c, hc, hx⟩ := ih h
    · obtain ⟨hx, hne⟩ | ⟨hx, -⟩ := Term.mem_freeVars_subst hx
      · exact .inl ⟨hx, by simp [hne, hnot]⟩
      · exact .inr ⟨b, .head _, hx⟩
    · exact .inr ⟨c, .tail _ hc, hx⟩

/-! ### What is free in a session -/

/-- All free variables of values and of contents of the store are in a set of names, and
    none of their binders is. -/
structure Lexical (F : String → Prop) (s : Session) : Prop where
  names : s.names.stem = "_s"
  values : ∀ b ∈ s.bindings, b.2.Apart F
  store : s.store.Apart F

theorem lexical_new (F : String → Prop) (maxSteps unifyFuel : Int64) :
    Lexical F { maxSteps, unifyFuel } :=
  ⟨rfl, by simp, fun h => absurd h (by simp [Store.get?])⟩

section Lexical

variable {F : String → Prop} {s : Session} {st : Statement}

theorem Lexical.free_close (hs : s.Lexical F) {t : Term}
    (ht : ∀ x ∈ t.freeVars, x ∈ s.bindings.map Prod.fst ∨ F x) :
    ∀ x ∈ (s.close t).1.freeVars, F x := by
  intro x hx
  obtain ⟨hx, hnot⟩ | ⟨b, hb, hx⟩ := mem_freeVars_putIn hx
  · obtain ⟨y, hy, hxy⟩ := Term.exists_of_mem_freeVars_alphaConvert hx
    have hget : ((∅ : Renaming)[y]?).getD y = y := by simp
    rw [hxy, hget] at hnot ⊢
    exact (ht y hy).resolve_left hnot
  · exact (hs.values b hb).free x hx

theorem Lexical.apart_start (hs : s.Lexical F)
    (hF : ∀ (x : String) (n : Int), F x → x ≠ "_v" ++ toString n) {t : Term}
    (ht : ∀ x ∈ t.freeVars, x ∈ s.bindings.map Prod.fst ∨ F x) :
    (Run.start (s.close t).1 s.store).Apart F :=
  Config.apart_start (hs.free_close ht) hF hs.store

theorem Lexical.exec (hs : s.Lexical F)
    (hF : ∀ (x : String) (n : Int), F x → x ≠ "_v" ++ toString n)
    (ht : ∀ x ∈ st.term.freeVars, x ∈ s.bindings.map Prod.fst ∨ F x) :
    (s.exec st).session.Lexical F := by
  obtain ⟨e, -, hsession⟩ | ⟨r, -, -, hsession⟩ := exec_cases s st
  · rw [hsession]
    exact ⟨hs.names, hs.values, hs.store⟩
  · have hfinal : (s.evaluation st).final.Apart F := (hs.apart_start hF ht).after (Run.after_loop ..)
    rw [hsession]
    refine ⟨(st.term.stem_alphaConvert ∅ s.names).trans hs.names, fun b hb => ?_, hfinal.store⟩
    obtain hb | hb := List.mem_append.mp hb
    · obtain ⟨x, -, rfl⟩ : ∃ x, st.binder = some x ∧ (x, (s.evaluation st).final.term) = b := by
        simpa using hb
      exact hfinal.term
    · exact hs.values b hb

end Lexical

theorem Reached.lexical (h : Reached (fun _ st => Parsed st) s) : s.Lexical IsIdent :=
  h.invariant (lexical_new IsIdent) fun hs hst =>
    hs.exec (fun _ _ hx => hx.ne_append (.inr rfl) _) fun _ hx => .inr (hst.denotable.term.isIdent hx)

/-! ### Aliases -/

theorem alphaConvert_empty_var (x : String) (s : NameSupply) :
    (Term.var x).alphaConvert ∅ s = (.var x, s) := by
  have hget : ((∅ : Renaming)[x]?).getD x = x := by simp
  rw [Term.alphaConvert, hget]

theorem putIn_var {bs : List (String × Term)} {x : String} {v : Term}
    (hv : bs.lookup x = some v) (hfree : ∀ y ∈ v.freeVars, bs.lookup y = none) :
    putIn bs (.var x) = v := by
  have hintact : ∀ y ∈ (Term.var x).freeVars, Intact bs y :=
    fun y hy => Term.mem_freeVars_var.mp hy ▸ intact_of_lookup hv hfree
  rw [putIn_eq_substAll hintact, Term.substAll, hv, Option.getD_some]

/-- A statement whose closed term is a value is evaluated by renaming its binders. -/
theorem evaluation_of_isValue {s : Session} {st : Statement} {v : Term}
    (hclose : (s.close st.term).1 = v) (hv : v.isValue = true) :
    s.evaluation st = ⟨⟨(v.alphaConvert ∅ (.forBinders "" 0)).1, s.store⟩, 0, .normalForm⟩ := by
  have hvalue : (v.alphaConvert ∅ (.forBinders "" 0)).1.isValue = true := by
    rw [Term.isValue_alphaConvert, hv]
  have hstep : (Run.start v s.store).step? = none := step_eq_none_of_isValue s.store hvalue
  rw [evaluation, hclose, evalWith, Run.loop_of_after _ rfl hstep (Nat.zero_le _)]
  simp only [Run.start, Run.settled, hvalue, if_true]

/-- Functions whose binders are renamed to the same names are applied with the same
    evaluation. -/
theorem evaluation_app_congr {s : Session} {st st' : Statement} {f f' a : Term}
    (h : (s.close st.term).1 = .app f a) (h' : (s.close st'.term).1 = .app f' a)
    (hf : f.alphaConvert ∅ (.forBinders "" 0) = f'.alphaConvert ∅ (.forBinders "" 0)) :
    s.evaluation st = s.evaluation st' := by
  have hstart : Run.start (.app f a) s.store = Run.start (.app f' a) s.store := by
    simp only [Run.start, Term.alphaConvert, hf]
  rw [evaluation, evaluation, h, h', evalWith, evalWith, hstart]

/-- **An alias may be used for what it is an alias of**, if the value has no free variable
    that is bound. -/
theorem evaluation_alias {s : Session} {link st st' : Statement} {f g : String} {v e : Term}
    {o : Outcome} (hg : link.binder = some g) (hf : link.term = .var f)
    (ho : (s.exec link).result = .ok o) (hv : s.bindings.lookup f = some v)
    (hvalue : v.isValue = true) (hfree : ∀ y ∈ v.freeVars, s.bindings.lookup y = none)
    (hst : st.term = .app (.var g) e) (hst' : st'.term = .app (.var f) e) :
    (s.exec link).session.evaluation st = (s.exec link).session.evaluation st' := by
  obtain ⟨e, he, -⟩ | ⟨r, -, -, hsession⟩ := exec_cases s link
  · rw [he] at ho
    exact absurd ho (by simp)
  have hclose : (s.close link.term).1 = v := by
    rw [close_fst, hf, alphaConvert_empty_var, putIn_var hv hfree]
  let w := (v.alphaConvert ∅ (.forBinders "" 0)).1
  have hbindings : (s.exec link).session.bindings = (g, w) :: s.bindings := by
    rw [hsession, hg, evaluation_of_isValue hclose hvalue]
    rfl
  have hwfree : ∀ y ∈ w.freeVars, s.bindings.lookup y = none := by
    intro y hy
    obtain ⟨z, hz, hyz⟩ := Term.exists_of_mem_freeVars_alphaConvert hy
    have hget : ((∅ : Renaming)[z]?).getD z = z := by simp
    rw [hyz, hget]
    exact hfree z hz
  have happ : ∀ x, ((s.exec link).session.close (.app (.var x) e)).1 =
      .app (putIn ((g, w) :: s.bindings) (.var x))
        (putIn ((g, w) :: s.bindings) (e.alphaConvert ∅ (s.exec link).session.names).1) := by
    intro x
    rw [close_fst, hbindings, Term.alphaConvert, alphaConvert_empty_var]
    exact putIn_app _ _ _
  -- `g` stands for the value under new names, `f` for the value itself or for that of `g`
  have hgval : putIn ((g, w) :: s.bindings) (.var g) = w := by
    rw [putIn_cons, Term.subst, if_pos rfl, putIn_eq_self hwfree]
  have hsame : w.alphaConvert ∅ (.forBinders "" 0) = v.alphaConvert ∅ (.forBinders "" 0) :=
    Term.alphaConvert_alphaConvert v fun x => by simp
  refine evaluation_app_congr (hst ▸ happ g) (hst' ▸ happ f) ?_
  by_cases hfg : f = g
  · rw [hfg]
  · have hfval : putIn ((g, w) :: s.bindings) (.var f) = v := by
      rw [putIn_cons, Term.subst, if_neg hfg, putIn_var hv hfree]
    rw [hgval, hfval, hsame]

/-! ### Sessions -/

/-- **Scoping of session values.**  In a session that parsed statements lead to:

    * if the values of the variables of a statement are intact, then the term that is
      evaluated is the statement, its binders renamed, with all variables replaced at
      once by their latest values, and what is free in a value that is put in stays free;
    * right after `let g = f`, where the value of `f` is a value in which no bound name is
      free, `g e` and `f e` have the same evaluation. -/
theorem exec_scoped {s : Session} (hs : s.Reached fun _ st => Parsed st) :
    (∀ {st : Statement}, Parsed st → (∀ x ∈ st.term.freeVars, Intact s.bindings x) →
      (s.close st.term).1 =
        (st.term.alphaConvert ∅ s.names).1.substAll (fun x => s.bindings.lookup x) ∧
      ∀ {x y : String} {v : Term}, x ∈ st.term.freeVars → s.bindings.lookup x = some v →
        y ∈ v.freeVars → y ∈ (s.close st.term).1.freeVars) ∧
    ∀ {link st st' : Statement} {f g : String} {v e : Term} {o : Outcome},
      link.binder = some g → link.term = .var f → (s.exec link).result = .ok o →
      s.bindings.lookup f = some v → v.isValue = true →
      (∀ y ∈ v.freeVars, s.bindings.lookup y = none) →
      st.term = .app (.var g) e → st'.term = .app (.var f) e →
      (s.exec link).session.evaluation st = (s.exec link).session.evaluation st' := by
  refine ⟨fun {st} hst hintact => ?_, evaluation_alias⟩
  have hlex := hs.lexical
  have hget : ∀ x : String, ((∅ : Renaming)[x]?).getD x = x := by simp
  have hclose : (s.close st.term).1 =
      (st.term.alphaConvert ∅ s.names).1.substAll fun x => s.bindings.lookup x := by
    refine putIn_eq_substAll fun x hx => ?_
    obtain ⟨y, hy, hxy⟩ := Term.exists_of_mem_freeVars_alphaConvert hx
    rw [hxy, hget]
    exact hintact y hy
  refine ⟨hclose, fun {x y v} hx hv hy => ?_⟩
  have hmem : (x, v) ∈ s.bindings := by
    obtain ⟨l, l', hl, -⟩ := List.lookup_eq_some_iff.mp hv
    simp [hl]
  have hident : IsIdent y := (hlex.values (x, v) hmem).free y hy
  -- the binders of the statement and the free variables of values are different names
  have hbound : y ∉ (st.term.alphaConvert ∅ s.names).1.boundNames := by
    intro hmem
    obtain ⟨n, -, -, hn⟩ := Term.issued_of_mem_boundNames_alphaConvert hmem
    exact hident.ne_append (.inl hlex.names) _ hn
  have hfree : x ∈ (st.term.alphaConvert ∅ s.names).1.freeVars := by
    have hx' : IsIdent x := hst.denotable.term.isIdent hx
    have hmem := Term.mem_freeVars_alphaConvert (ρ := ∅) (s := s.names) hx fun n => by
      rw [hget]
      exact hx'.ne_append (.inl hlex.names) _
    rwa [hget] at hmem
  rw [hclose]
  exact Term.mem_freeVars_substAll hfree hv hy hbound

/-- `let f = λx. y`, where `y` has no value. -/
def freeBody : Statement := ⟨some "f", .abs "x" (.var "y"), 0⟩

/-- The session after that. -/
def withFreeBody : Session :=
  { maxSteps := 0, unifyFuel := 0, weak := ⟨"_w", 1⟩, names := ⟨"_s", 1⟩, count := 1
    env := (∅ : TypeEnv).insert "f" (.all "T1" (.arrow (.var "T1") (.var "_w0")))
    bindings := [("f", .abs "_v0" (.var "y"))] }

theorem exec_freeBody :
    (Session.exec { maxSteps := 0, unifyFuel := 0 } freeBody).session = withFreeBody := by cbv

theorem reached_freeBody : withFreeBody.Reached fun _ st => Parsed st :=
  exec_freeBody ▸ (Reached.new 0 0).exec (.inl ⟨Glyph.ofString "let f = \\x. y", by decide +kernel⟩)

/-- `let g = f`. -/
def aliasOfF : Statement := ⟨some "g", .var "f", 0⟩

/-- `f 1` and `g 1`. -/
def applied (f : String) : Statement := ⟨none, .app (.var f) (.int 1), 0⟩

/-- `y` stays free when `f` is put in, and an alias of `f` does the same. -/
theorem exec_scoped_freeBody :
    "y" ∈ (withFreeBody.close (applied "f").term).1.freeVars ∧
      (withFreeBody.exec aliasOfF).session.evaluation (applied "g") =
        (withFreeBody.exec aliasOfF).session.evaluation (applied "f") := by
  have hfree : ∀ y ∈ (Term.abs "_v0" (.var "y")).freeVars,
      withFreeBody.bindings.lookup y = none := by
    intro y hy
    obtain rfl := Term.mem_freeVars_var.mp (Term.mem_freeVars_abs.mp hy).2
    rfl
  have hy : "y" ∈ (Term.abs "_v0" (.var "y")).freeVars := by decide
  have hparsed : Parsed (applied "f") := .inl ⟨Glyph.ofString "f 1", by decide +kernel⟩
  have hf : ∀ x ∈ (applied "f").term.freeVars, x = "f" := by
    intro x hx
    have hfx : "f" = x := by simpa [applied, Term.freeVars] using hx
    exact hfx.symm
  have hresult : (withFreeBody.exec aliasOfF).result.toOption.isSome = true := by cbv
  refine ⟨((exec_scoped reached_freeBody).1 hparsed fun x hx => ?_).2 (x := "f") (by decide) rfl hy,
    ?_⟩
  · rw [hf x hx]
    exact intact_of_lookup rfl hfree
  · cases h : (withFreeBody.exec aliasOfF).result with
    | error e =>
      rw [h] at hresult
      exact absurd hresult (by simp [Except.toOption])
    | ok o => exact (exec_scoped reached_freeBody).2 rfl rfl h rfl rfl hfree rfl rfl

/-- `let y = 5`. -/
def rebinding : Statement := ⟨some "y", .int 5, 0⟩

/-- The session after `let f = λx. y` and this. -/
def withRebinding : Session :=
  { withFreeBody with
    count := 2
    env := withFreeBody.env.insert "y" .int
    bindings := [("y", .int 5), ("f", .abs "_v0" (.var "y"))] }

theorem exec_rebinding : (withFreeBody.exec rebinding).session = withRebinding := by cbv

/-- Values that are not intact are reached: right after `let f = λx. y`, `let y = 5` and
    `let g = f`, the `y` in the value of `g` is replaced by `5`, and `g 1` and `f 1` have
    different values. -/
theorem exec_not_scoped_of_rebinding :
    ∃ s : Session, s.Reached (fun _ st => Parsed st) ∧
      (∃ o, (s.exec aliasOfF).result = .ok o) ∧
      (∃ v, s.bindings.lookup "f" = some v ∧ v.isValue = true) ∧
      let s' := (s.exec aliasOfF).session
      (s'.close (applied "g").term).1 ≠ ((applied "g").term.alphaConvert ∅ s'.names).1.substAll
          (fun x => s'.bindings.lookup x) ∧
        (s'.evaluation (applied "g")).final.term.alphaEq
          (s'.evaluation (applied "f")).final.term = false := by
  have hreached : withRebinding.Reached fun _ st => Parsed st :=
    exec_rebinding ▸ reached_freeBody.exec (.inl ⟨Glyph.ofString "let y = 5", by decide +kernel⟩)
  have hresult : (withRebinding.exec aliasOfF).result =
      .ok ⟨some "g", .all "T1" (.arrow (.var "T1") (.var "_w0")), .abs "_v0" (.var "y"),
        .normalForm, 0⟩ := by cbv
  refine ⟨withRebinding, hreached, ⟨_, hresult⟩, ⟨_, rfl, rfl⟩, ?_, ?_⟩
  · have hclose : ((withRebinding.exec aliasOfF).session.close (applied "g").term).1 =
        .app (.abs "_v0" (.int 5)) (.int 1) := by cbv
    have hall : ((applied "g").term.alphaConvert ∅ (withRebinding.exec aliasOfF).session.names).1.substAll
        (fun x => (withRebinding.exec aliasOfF).session.bindings.lookup x) =
          .app (.abs "_v0" (.var "y")) (.int 1) := by cbv
    rw [hclose, hall]
    decide
  · cbv

end Session

end MiniML
