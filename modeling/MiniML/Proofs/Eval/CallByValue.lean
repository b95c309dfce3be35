/-
  MiniML/Proofs/Eval/CallByValue.lean
  ===================================
  **Arguments and values** — when the application `(λx. b) e` does what
  `let x = e in b` does.

  In general it does not.  A `let` evaluates its value first, but an application puts
  its argument into the body as it stands and leaves it to be evaluated wherever the body
  uses the parameter: never, if the parameter is not used, and each time anew, if it is
  used more than once.  The two agree step by step if the argument is a value already,
  and also if the body *demands* its parameter, which means that evaluation of the body
  begins with the parameter and that the parameter occurs nowhere else.

  Other arguments may do as well, though not step by step: one that never touches the
  store comes to the same value wherever and however often it is evaluated, as long as
  none of it is left below an abstraction.

  As for reduction itself, the comparison is made on nameless terms, where both forms
  have the same body.
-/
import MiniML.Proofs.Session.Nested

namespace MiniML

namespace Nameless

/-! ### Values and `let`s of the reference machine -/

theorem lift_zero (t : Nameless) : t.lift 0 = t := by
  have hshift : shift 0 = fun _ => .var := by
    funext d v
    cases v with
    | bound i => rw [shift, Nat.add_zero, ite_self]
    | free x => rfl
  rw [lift, hshift, replace_var]

theorem step_eq_none_of_isValue (s : Store) {t : Nameless} (h : t.isValue = true) :
    step s t = none := by
  induction t with
  | var | abs | int | nil | unit | region => rfl
  | cons a b iha ihb =>
    simp only [isValue, Bool.and_eq_true] at h
    simp only [step, iha h.1, ihb h.2, Option.map_none]
  | fix f ih => simp only [step, ih h, Option.map_none]
  | app | letIn | head | tail | add | sub | ifZero | ifEmpty | mkRef | deref | assign =>
    exact absurd h Bool.false_ne_true

/-- What steps is no abstraction and no `fix` of one, so it is not applied yet. -/
theorem Rule.beta?_eq_none_of_step {s : Store} {t a : Nameless} {c : Config}
    (h : step s t = some c) : Rule.beta? t a = none := by
  cases t with
  | abs b => cases h
  | fix f =>
    cases f with
    | abs b => cases h
    | _ => rfl
  | _ => rfl

/-- A `let` comes to a value in three stages: its value is evaluated, it takes the place
    of the binder, and the body is evaluated. -/
theorem stages_of_after_letIn {n : Nat} {t b : Nameless} {s : Store} {d : Config}
    (h : after Config.step? n ⟨.letIn t b, s⟩ = some d) (hd : d.term.isValue = true) :
    ∃ k m v, n = k + 1 + m ∧ after Config.step? k ⟨t, s⟩ = some v ∧ v.term.isValue = true ∧
      after Config.step? m ⟨b.instantiate v.term, v.store⟩ = some d := by
  induction n generalizing t s with
  | zero =>
    cases h
    exact absurd hd Bool.false_ne_true
  | succ n ih =>
    obtain ⟨c, hc, hrest⟩ := Option.bind_eq_some_iff.mp h
    rw [Config.step?, step] at hc
    cases ht : step s t with
    | some c' =>
      rw [ht] at hc
      obtain rfl := Option.some.inj hc
      obtain ⟨k, m, v, rfl, hv, hvalue, hbody⟩ := ih hrest
      refine ⟨k + 1, m, v, by omega, ?_, hvalue, hbody⟩
      rw [after, Config.step?, ht, Option.bind_some]
      exact hv
    | none =>
      rw [ht] at hc
      simp only at hc
      split at hc
      · rename_i hvalue
        obtain rfl := Option.some.inj hc
        exact ⟨0, n, ⟨t, s⟩, by omega, rfl, hvalue, hrest⟩
      · cases hc

/-- An application does in the same number of steps what the `let` does, if the argument
    is a value or the body evaluates it first. -/
theorem after_app_of_letIn {n : Nat} {t b : Nameless} {s : Store} {d : Config}
    (h : after Config.step? n ⟨.letIn t b, s⟩ = some d) (hd : d.term.isValue = true)
    (hb : t.isValue = true ∨ Forwards b.instantiate) :
    after Config.step? n ⟨.app (.abs b) t, s⟩ = some d := by
  obtain ⟨k, m, v, rfl, hv, -, hbody⟩ := stages_of_after_letIn h hd
  -- the application takes its one step before the argument takes its steps, not after them
  have hbeta : Config.step? ⟨.app (.abs b) t, s⟩ = some ⟨b.instantiate t, s⟩ := rfl
  have harg : after Config.step? k ⟨b.instantiate t, s⟩ = some (v.within b.instantiate) := by
    rcases hb with ht | hb
    · cases k with
      | zero =>
        cases hv
        rfl
      | succ k =>
        rw [after, Config.step?, step_eq_none_of_isValue s ht] at hv
        cases hv
    · exact hb.after hv
  rw [Nat.add_comm k 1, Nat.add_assoc, after_add, after, hbeta]
  change (after Config.step? (k + m) ⟨b.instantiate t, s⟩) = some d
  rw [after_add, harg]
  exact hbody

end Nameless

/-! ### Bodies that demand their parameter -/

/-- The parts that are evaluated before the hole are values, and the machine goes on to
    the hole.  It never goes on to the argument of a function that can be applied. -/
def Frame.Ready : Frame → Prop
  | .arg _ => False
  | .consTail t | .addRight t | .subRight t | .assignValue t => t.isValue = true
  | .func _ | .value _ _ | .consHead _ | .head | .tail | .addLeft _ | .subLeft _ => True
  | .ifZero _ _ | .ifEmpty _ _ | .fix | .mkRef | .deref | .assignRef _ => True

/-- Evaluation of the term begins with the name, which occurs nowhere else in it.  This is
    what an argument needs that may do anything.  It leaves out arguments that do not touch
    the store, such as `add 1 2`: a body may use one of those any number of times and come
    to the same value, but not in the same number of steps. -/
inductive Term.Demands (x : String) : Term → Prop where
  | var : Demands x (.var x)
  | inside (K : Frame) {t : Term} (ready : K.Ready) (once : x ∉ (K.fill .unit).freeVars) :
      t.Demands x → Demands x (K.fill t)

/-- A frame without names. -/
def Frame.plug : Frame → Nameless → Nameless
  | .func a, t => .app t a.nameless
  | .arg f, t => .app f.nameless t
  | .value x b, t => .letIn t (b.namelessIn [x])
  | .consHead l, t => .cons t l.nameless
  | .consTail h, t => .cons h.nameless t
  | .head, t => .head t
  | .tail, t => .tail t
  | .addLeft r, t => .add t r.nameless
  | .addRight l, t => .add l.nameless t
  | .subLeft r, t => .sub t r.nameless
  | .subRight l, t => .sub l.nameless t
  | .ifZero a b, t => .ifZero t a.nameless b.nameless
  | .ifEmpty a b, t => .ifEmpty t a.nameless b.nameless
  | .fix, t => .fix t
  | .mkRef, t => .mkRef t
  | .deref, t => .deref t
  | .assignRef v, t => .assign t v.nameless
  | .assignValue r, t => .assign r.nameless t

theorem Frame.forwards_plug {K : Frame} (hK : K.Ready) : Nameless.Forwards K.plug := by
  intro s t c h
  have hvalue : ∀ {u : Term}, u.isValue = true → Nameless.step s u.nameless = none := by
    intro u hu
    exact Nameless.step_eq_none_of_isValue s (u.isValue_nameless.trans hu)
  cases K with
  | arg f => exact hK.elim
  | func a =>
    simp only [plug, Nameless.step, Nameless.Rule.beta?_eq_none_of_step h, h]
    rfl
  | consTail u | addRight u | subRight u | assignValue u =>
    simp only [plug, Nameless.step, hvalue hK, h]
    rfl
  | value | consHead | head | tail | addLeft | subLeft | ifZero | ifEmpty | fix | mkRef | deref
  | assignRef =>
    simp only [plug, Nameless.step, h]
    rfl

namespace Term

/-- A binder whose name is not used may stand for anything. -/
theorem replace_point_of_unused {x : String} {t : Term} {Γ : List String}
    (h : x ∈ t.freeVars → x ∈ Γ) (u : Nameless) :
    (t.namelessIn (Γ ++ [x])).replace (Nameless.point u) Γ.length = t.namelessIn Γ := by
  have hunused : t.namelessIn (Γ ++ [x]) = t.namelessIn Γ := by
    refine namelessIn_congr fun y hy => ?_
    rcases resolve_cases Γ y with ⟨i, -, hΓ, hΔ⟩ | ⟨hnot, hfree⟩
    · rw [hΓ, hΔ]
    · have hyx : y ≠ x := by
        rintro rfl
        exact hnot (h hy)
      rw [hfree, resolve_eq_free (by simp [hnot, hyx])]
  rw [hunused]
  refine Nameless.All.replace_eq_self ((t.all_namelessIn Γ).mono fun k v hv => ?_)
  cases v with
  | bound i => exact if_pos hv.1
  | free y => rfl

/-- A frame that does not use the name is the same whatever the name stands for. -/
theorem instantiate_fill {x : String} {K : Frame} (hK : x ∉ (K.fill .unit).freeVars) (t : Term)
    (u : Nameless) :
    ((K.fill t).namelessIn [x]).instantiate u = K.plug ((t.namelessIn [x]).instantiate u) := by
  have hpart : ∀ {r : Term}, x ∉ r.freeVars →
      (r.namelessIn [x]).replace (Nameless.point u) 0 = r.nameless := by
    intro r hr
    exact replace_point_of_unused (Γ := []) (fun hx => absurd hx hr) u
  cases K with
  | value y b =>
    have hbody : x ∈ b.freeVars → x ∈ [y] := by
      intro hx
      by_contra hne
      exact hK (mem_freeVars_letIn.mpr (.inr ⟨by simpa using hne, hx⟩))
    exact congrArg (Nameless.letIn _) (replace_point_of_unused (Γ := [y]) hbody u)
  | head | tail | fix | mkRef | deref => rfl
  | func r | arg r | consHead r | consTail r | addLeft r | addRight r | subLeft r | subRight r
  | assignRef r | assignValue r =>
    have hr : x ∉ r.freeVars := by simpa [Frame.fill, freeVars] using hK
    simp only [Frame.fill, namelessIn, Nameless.instantiate, Nameless.replace, Frame.plug,
      hpart hr]
  | ifZero r r' | ifEmpty r r' =>
    have hr : x ∉ r.freeVars ∧ x ∉ r'.freeVars := by simpa [Frame.fill, freeVars] using hK
    simp only [Frame.fill, namelessIn, Nameless.instantiate, Nameless.replace, Frame.plug,
      hpart hr.1, hpart hr.2]

/-- A body that demands its parameter evaluates the argument first. -/
theorem Demands.forwards {x : String} {b : Term} (h : b.Demands x) :
    Nameless.Forwards (b.namelessIn [x]).instantiate := by
  induction h with
  | var =>
    have hself : ((Term.var x).namelessIn [x]).instantiate = id := by
      funext u
      rw [namelessIn, resolve, if_pos rfl]
      exact u.lift_zero
    intro s u c hu
    rw [hself]
    exact hu
  | @inside K t ready once _ ih =>
    have hfill : ((K.fill t).namelessIn [x]).instantiate =
        K.plug ∘ (t.namelessIn [x]).instantiate := funext (instantiate_fill once t)
    rw [hfill]
    exact (K.forwards_plug ready).comp ih

end Term

/-! ### Evaluation -/

/-- The stores that runs of terms with identifiers for free variables leave behind, one
    after the other, from the empty store on. -/
inductive Store.Reached : Store → Prop where
  | empty : Reached .empty
  | run {s : Store} (t : Term) (maxSteps : Int64) (hfree : ∀ x ∈ t.freeVars, IsIdent x) :
      Reached s → Reached (eval t s maxSteps).final.store

/-- No run gives a binder the name of an identifier. -/
theorem apart_start_of_isIdent {t : Term} {s : Store} (hfree : ∀ x ∈ t.freeVars, IsIdent x)
    (hs : s.Apart IsIdent) : (Run.start t s).Apart IsIdent :=
  Config.apart_start hfree (fun _ n hx => hx.ne_append (.inr rfl) (toString n)) hs

theorem Store.Reached.apart {s : Store} (h : s.Reached) : s.Apart IsIdent := by
  induction h with
  | empty =>
    intro id t ht
    exact absurd ht (by simp [Store.get?, Store.empty])
  | @run s t maxSteps hfree _ ih =>
    intro id u hu
    have hafter : after Config.step? (eval t s maxSteps).steps (Run.start t s) =
        some (eval t s maxSteps).final := Run.after_loop ..
    exact ((apart_start_of_isIdent hfree ih).after hafter).store hu

structure Config.AlphaEq (c d : Config) : Prop where
  term : c.term.alphaEq d.term = true
  next : c.store.next = d.store.next
  cells : ∀ id, Option.Rel (fun a b : Term => a.alphaEq b = true)
    (c.store.get? id) (d.store.get? id)

theorem Config.alphaEq_of_nameless_eq {c d : Config} (h : c.nameless = d.nameless) :
    c.AlphaEq d := by
  obtain ⟨hterm, hstore⟩ : c.term.nameless = d.term.nameless ∧
      c.store.nameless = d.store.nameless := Nameless.Config.mk.inj h
  exact ⟨Term.alphaEq_iff.mpr hterm, congrArg Nameless.Store.next hstore,
    Store.rel_of_nameless_eq hstore⟩

section Runs

variable {t t' : Term} {s : Store}

theorem nameless_start_of_isIdent (hfree : ∀ x ∈ t.freeVars, IsIdent x)
    (hbinders : t.binders ≤ 2 ^ 64) : (Run.start t s).nameless = ⟨t.nameless, s.nameless⟩ :=
  Config.nameless_start s hbinders fun x hx n => (hfree x hx).ne_append (.inr rfl) (toString n)

/-- The run of a term that comes to a value, read without names. -/
theorem after_of_normalForm (hfree : ∀ x ∈ t.freeVars, IsIdent x) (hs : s.Apart IsIdent)
    (hbinders : t.binders ≤ 2 ^ 64) {n : Int64} (hn : (eval t s n).status = .normalForm) :
    after Nameless.Config.step? (eval t s n).steps ⟨t.nameless, s.nameless⟩ =
        some (eval t s n).final.nameless ∧
      (eval t s n).final.nameless.term.isValue = true := by
  have hafter : after Config.step? (eval t s n).steps (Run.start t s) = some (eval t s n).final :=
    Run.after_loop ..
  have hended : (eval t s n).Ended := Run.loop_ended ..
  rw [Run.Ended, hn] at hended
  have hnameless := (apart_start_of_isIdent hfree hs).after_nameless (eval t s n).steps
  rw [nameless_start_of_isIdent hfree hbinders, hafter] at hnameless
  exact ⟨hnameless, (Term.isValue_nameless _).trans hended.2⟩

/-- A term comes to a value if its nameless form does, after as many steps. -/
theorem eval_of_after (hfree : ∀ x ∈ t.freeVars, IsIdent x) (hs : s.Apart IsIdent)
    (hbinders : t.binders ≤ 2 ^ 64) {k : Nat} {c : Config}
    (h : after Nameless.Config.step? k ⟨t.nameless, s.nameless⟩ = some c.nameless)
    (hc : c.nameless.term.isValue = true) {m : Int64} (hm : k ≤ stepBound m) :
    (eval t s m).status = .normalForm ∧ (eval t s m).steps = k ∧ (eval t s m).final.AlphaEq c := by
  have hstart := apart_start_of_isIdent hfree hs
  have hnameless := hstart.after_nameless k
  rw [nameless_start_of_isIdent hfree hbinders] at hnameless
  obtain ⟨d, hd, hdc⟩ := Option.map_eq_some_iff.mp (hnameless.symm.trans h)
  have hvalue : d.term.isValue = true := by
    rw [← d.term.isValue_nameless]
    exact (congrArg (fun c => c.term.isValue) hdc).trans hc
  have hrun : eval t s m = ⟨d, 0 + k, Run.settled d.term⟩ :=
    Run.loop_of_after _ hd (step_eq_none_of_isValue d.store hvalue) hm 0 ()
  rw [hrun]
  refine ⟨?_, Nat.zero_add k, Config.alphaEq_of_nameless_eq hdc⟩
  simp only [Run.settled, hvalue, if_true]

end Runs

section Arguments

variable {x : String} {e b : Term} {s : Store}

theorem isIdent_of_mem_letIn (he : e.Denotable) (hb : b.Denotable) :
    ∀ y ∈ (Term.letIn x e b).freeVars, IsIdent y := by
  intro y hy
  rcases Term.mem_freeVars_letIn.mp hy with hy | ⟨-, hy⟩
  · exact he.isIdent hy
  · exact hb.isIdent hy

theorem isIdent_of_mem_app (he : e.Denotable) (hb : b.Denotable) :
    ∀ y ∈ (Term.app (.abs x b) e).freeVars, IsIdent y := by
  intro y hy
  simp only [Term.freeVars, Std.ExtTreeSet.mem_union_iff] at hy
  rcases hy with hy | hy
  · exact hb.isIdent (Term.mem_freeVars_abs.mp hy).2
  · exact he.isIdent hy

/-- **An argument that is not used is not evaluated.**  Whatever the argument is, the
    application does what its body does, with one step more. -/
theorem eval_app_of_unused (he : e.Denotable) (hb : b.Denotable) (hs : s.Reached)
    (hbinders : (Term.app (.abs x b) e).binders ≤ 2 ^ 64) (hx : x ∉ b.freeVars) {n m : Int64}
    (hn : (eval b s n).status = .normalForm) (hm : (eval b s n).steps + 1 ≤ stepBound m) :
    let r := eval b s n
    let r' := eval (.app (.abs x b) e) s m
    r'.status = .normalForm ∧ r'.steps = r.steps + 1 ∧ r'.final.AlphaEq r.final := by
  intro r r'
  have hbound : b.binders ≤ 2 ^ 64 := by
    simp only [Term.binders] at hbinders
    omega
  obtain ⟨hbody, hvalue⟩ := after_of_normalForm (fun y hy => hb.isIdent hy) hs.apart hbound hn
  have hbeta : Nameless.Config.step? ⟨(Term.app (.abs x b) e).nameless, s.nameless⟩ =
      some ⟨b.nameless, s.nameless⟩ := by
    have hdrop : (b.namelessIn [x]).instantiate e.nameless = b.nameless :=
      Term.replace_point_of_unused (Γ := []) (fun h => absurd h hx) e.nameless
    exact congrArg (fun u => some (Nameless.Config.mk u s.nameless)) hdrop
  refine eval_of_after (isIdent_of_mem_app he hb) hs.apart hbinders ?_ hvalue hm
  rw [after, hbeta]
  exact hbody

/-- **Call by value, where it holds.**  Let `let x = e in b` come to a value.  If `e` is a
    value, or if `b` demands `x`, then the application `(λx. b) e` comes to the same value
    with the same store, up to the names of binders, in the same number of steps, for every
    bound that admits them.  Nothing is said of other arguments: some of them come to the
    same value in another number of steps. -/
theorem eval_app_of_letIn (he : e.Denotable) (hb : b.Denotable) (hs : s.Reached)
    (hbinders : (Term.letIn x e b).binders ≤ 2 ^ 64) (harg : e.isValue = true ∨ b.Demands x)
    {n m : Int64} (hn : (eval (.letIn x e b) s n).status = .normalForm)
    (hm : (eval (.letIn x e b) s n).steps ≤ stepBound m) :
    let r := eval (.letIn x e b) s n
    let r' := eval (.app (.abs x b) e) s m
    r'.status = .normalForm ∧ r'.steps = r.steps ∧ r'.final.AlphaEq r.final := by
  intro r r'
  have hbinders' : (Term.app (.abs x b) e).binders ≤ 2 ^ 64 := by
    simp only [Term.binders] at hbinders ⊢
    omega
  obtain ⟨hlet, hvalue⟩ := after_of_normalForm (isIdent_of_mem_letIn he hb) hs.apart hbinders hn
  have happ := Nameless.after_app_of_letIn hlet hvalue
    (harg.imp (e.isValue_nameless.trans ·) Term.Demands.forwards)
  exact eval_of_after (isIdent_of_mem_app he hb) hs.apart hbinders' happ hvalue hm

end Arguments

/-- `let c = ref 1 in !c`, and the argument of the application is evaluated in its body. -/
theorem eval_app_of_letIn_readCell :
    let r := eval (.letIn "c" (.mkRef (.int 1)) (.deref (.var "c"))) .empty 10
    let r' := eval (.app (.abs "c" (.deref (.var "c"))) (.mkRef (.int 1))) .empty 3
    (Term.deref (.var "c")).Demands "c" ∧ r.status = .normalForm ∧ r.steps = 3 ∧
      r'.status = .normalForm ∧ r'.steps = 3 ∧ r'.final.AlphaEq r.final := by
  intro r r'
  have hbody : (Term.deref (.var "c")).Denotable := .inr (by decide)
  have hdemands : (Term.deref (.var "c")).Demands "c" :=
    .inside .deref trivial (by simp [Frame.fill, Term.freeVars]) .var
  have hstatus : r.status = .normalForm := by cbv
  have hsteps : r.steps = 3 := by cbv
  have hbound : r.steps ≤ stepBound 3 := by
    rw [hsteps]
    decide
  have happ := eval_app_of_letIn (e := .mkRef (.int 1)) trivial hbody .empty (by decide)
    (.inr hdemands) hstatus hbound
  exact ⟨hdemands, hstatus, hsteps, happ.1, happ.2.1.trans hsteps, happ.2.2⟩

/-- `add 1 2` is evaluated once by the `let` and twice by the application. -/
example :
    let r := eval (.letIn "x" (.add (.int 1) (.int 2)) (.add (.var "x") (.var "x"))) .empty 10
    let r' := eval (.app (.abs "x" (.add (.var "x") (.var "x"))) (.add (.int 1) (.int 2))) .empty 10
    (r.final.term, r.steps) = (.int 6, 3) ∧ (r'.final.term, r'.steps) = (.int 6, 4) := by
  decide +kernel

/-- **Reduction is not call-by-value.**  `let x = ref 1 in 5` allocates a region and comes
    to 5, but with no bound does `(λx. 5) (ref 1)` leave this store behind: it drops its
    argument and comes to 5 with the empty store. -/
theorem eval_app_drops_allocation :
    let r := eval (.letIn "x" (.mkRef (.int 1)) (.int 5)) .empty 10
    r.status = .normalForm ∧ r.final.store.get? 0 = some (.int 1) ∧
      ∀ m, (eval (.app (.abs "x" (.int 5)) (.mkRef (.int 1))) .empty m).status = .normalForm ∧
        (eval (.app (.abs "x" (.int 5)) (.mkRef (.int 1))) .empty m).final.store.get? 0 = none ∧
        ¬ (eval (.app (.abs "x" (.int 5)) (.mkRef (.int 1))) .empty m).final.AlphaEq r.final := by
  intro r
  have hcell : r.final.store.get? 0 = some (.int 1) := by cbv
  have happ : ∀ m, eval (.app (.abs "x" (.int 5)) (.mkRef (.int 1))) .empty m =
      ⟨⟨.int 5, .empty⟩, 1, .normalForm⟩ := by
    intro m
    exact Run.loop_of_after _ (n := 1) (by cbv) (by cbv) (one_le_stepBound m) 0 ()
  have hnone : (Store.empty.get? 0) = none := by cbv
  refine ⟨by cbv, hcell, fun m => ?_⟩
  rw [happ m]
  refine ⟨rfl, hnone, fun h => ?_⟩
  have hrel := h.cells 0
  rw [hnone, hcell] at hrel
  cases hrel

end MiniML
