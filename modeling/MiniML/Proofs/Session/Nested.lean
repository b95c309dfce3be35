/-
  MiniML/Proofs/Session/Nested.lean
  =================================
  **A session computes what the nested `let` computes** — statements `let x₁ = e₁`, …,
  `let xₙ = eₙ` and a term `e`, executed one after the other, lead to the same value
  and the same store as the one program `let x₁ = e₁ in … let xₙ = eₙ in e`, and in as
  many steps, plus one for each `let`.

  The two sides name their binders differently: a session renames the binders of
  every statement twice and puts values into it, while a `let` substitutes in place.
  They are compared without names.  There the program that is left and the values of
  the bindings are one configuration of the reference machine, and each statement takes
  it to the next.
-/
import MiniML.Proofs.Session.Scoping

namespace MiniML

/-- `let x₁ = e₁ in … let xₙ = eₙ in e`. -/
def Term.letMany (bs : List (String × Term)) (e : Term) : Term :=
  bs.foldr (fun b t => .letIn b.1 b.2 t) e

/-- A term without free variables. -/
def Term.Ground (t : Term) : Prop := ∀ x, x ∉ t.freeVars

theorem Term.Apart.ground {t : Term} (h : t.Apart fun _ => False) : t.Ground :=
  fun x hx => h.free x hx

theorem Term.Ground.bind_nameless {t : Term} (h : t.Ground) (σ : String → Nameless) :
    t.nameless.bind σ = t.nameless := by
  conv_rhs => rw [← t.nameless.bind_free]
  exact bind_namelessIn_congr fun x hx => absurd hx (h x)

theorem Store.rel_of_nameless_eq {s s' : Store} (h : s.nameless = s'.nameless) (id : Int64) :
    Option.Rel (fun a b : Term => a.alphaEq b = true) (s.get? id) (s'.get? id) := by
  have hcell := congrArg (fun s : Nameless.Store => s.cells[id]?) h
  simp only [getElem?_nameless] at hcell
  cases hs : s.get? id with
  | none =>
    cases hs' : s'.get? id with
    | none => exact .none
    | some b => simp [hs, hs'] at hcell
  | some a =>
    cases hs' : s'.get? id with
    | none => simp [hs, hs'] at hcell
    | some b => exact .some (Term.alphaEq_iff.mpr (by simpa [hs, hs'] using hcell))

theorem Nameless.after_letIn {n : Nat} {t b : Nameless} {s : Store} {c : Config}
    (h : after Config.step? n ⟨t, s⟩ = some c) :
    after Config.step? n ⟨.letIn t b, s⟩ = some (c.within (.letIn · b)) := by
  have hlet : Forwards (.letIn · b) := by
    intro s t c hstep
    simp only [Nameless.step, hstep]
  exact hlet.after h

namespace Session

/-! ### Closing a statement -/

/-- What a name stands for under bindings, the latest first. -/
def meaning (bs : List (String × Term)) (x : String) : Nameless :=
  match bs.lookup x with
  | some v => v.nameless
  | none => .var (.free x)

theorem meaning_cons (x : String) (v : Term) (bs : List (String × Term)) :
    meaning ((x, v) :: bs) = Function.update (meaning bs) x v.nameless := by
  funext y
  by_cases hyx : y = x
  · subst hyx
    simp [meaning]
  · rw [Function.update_of_ne hyx, meaning, meaning, List.lookup_cons, beq_false_of_ne hyx]

theorem closed_meaning (bs : List (String × Term)) (x : String) : (meaning bs x).Closed := by
  rw [meaning]
  split
  · exact Term.closed_nameless _
  · exact trivial

theorem nameless_putIn {bs : List (String × Term)} (hbs : ∀ b ∈ bs, b.2.Ground) (t : Term) :
    (putIn bs t).nameless = t.nameless.bind (meaning bs) := by
  induction bs generalizing t with
  | nil => exact t.nameless.bind_free.symm
  | cons b bs ih =>
    obtain ⟨x, v⟩ := b
    rw [List.forall_mem_cons] at hbs
    obtain ⟨hv, hbs⟩ := hbs
    have hsubst := Term.namelessIn_subst (σ := meaning bs) (x := x) (a := v) (t := t) (Γ := [])
      (by simp) (by simp) fun y hy => absurd hy (hv y)
    rw [hv.bind_nameless] at hsubst
    rw [putIn_cons, ih hbs, meaning_cons]
    exact hsubst

/-- The values and the contents of the store have no free variables. -/
abbrev Ground (s : Session) : Prop := s.Lexical fun _ => False

section Ground

variable {s : Session} {st : Statement}

theorem nameless_close (hs : s.Ground) {t : Term} (ht : t.Denotable) (hbinders : t.binders ≤ 2 ^ 64) :
    (s.close t).1.nameless = t.nameless.bind (meaning s.bindings) := by
  rw [close_fst, nameless_putIn fun b hb => (hs.values b hb).ground,
    Term.nameless_alphaConvert hbinders fun x hx => (ht.isIdent hx).spares hs.names _]

/-- What a statement that comes to a value does, read without names. -/
structure Computes (s : Session) (st : Statement) (o : Outcome) : Prop where
  ground : (s.exec st).session.Ground
  bindings : (s.exec st).session.bindings = (st.binder.map (·, o.value)).toList ++ s.bindings
  value : o.value.isValue = true
  steps : after Nameless.Config.step? o.steps
    ⟨st.term.nameless.bind (meaning s.bindings), s.store.nameless⟩ =
      some (Config.nameless ⟨o.value, (s.exec st).session.store⟩)
  ended : (Config.nameless ⟨o.value, (s.exec st).session.store⟩).step? = none

/-- **One statement**: closed and evaluated, it does what the statement does with names
    standing for the values of their bindings. -/
theorem computes_of_exec (hs : s.Ground) (ht : st.term.Denotable)
    (hscope : ∀ x ∈ st.term.freeVars, x ∈ s.bindings.map Prod.fst)
    (hbinders : st.term.binders ≤ 2 ^ 64) (hclosed : (s.close st.term).1.binders ≤ 2 ^ 64)
    {o : Outcome} (ho : (s.exec st).result = .ok o) (hn : o.status = .normalForm) :
    Computes s st o := by
  have hground : (s.exec st).session.Ground :=
    hs.exec (fun _ _ => False.elim) fun x hx => .inl (hscope x hx)
  have hfree := hs.free_close fun x hx => .inl (hscope x hx)
  have hstart := hs.apart_start (fun _ _ => False.elim) fun x hx => .inl (hscope x hx)
  obtain ⟨e, he, -⟩ | ⟨r, -, hresult, hsession⟩ := exec_cases s st
  · rw [he] at ho
    exact absurd ho (by simp)
  rw [hresult] at ho
  obtain rfl := Except.ok.inj ho
  -- the statement runs from its term with the bindings substituted in
  have hafter : after Config.step? (s.evaluation st).steps
      (Run.start (s.close st.term).1 s.store) = some (s.evaluation st).final := Run.after_loop ..
  have hended : (s.evaluation st).Ended := Run.loop_ended ..
  obtain ⟨hnone, hvalue⟩ : (s.evaluation st).final.step? = none ∧
      (s.evaluation st).final.term.isValue = true := by
    rw [Run.Ended, show (s.evaluation st).status = .normalForm from hn] at hended
    exact hended
  have hconfig : (⟨(s.evaluation st).final.term, (s.exec st).session.store⟩ : Config) =
      (s.evaluation st).final := by rw [hsession]
  -- the same run on nameless terms, where closing is substitution without renaming
  refine ⟨hground, ?_, hvalue, ?_, ?_⟩
  · rw [hsession]
  · rw [hconfig, ← nameless_close hs ht hbinders,
      ← Config.nameless_start s.store hclosed fun x hx => (hfree x hx).elim,
      hstart.after_nameless, hafter]
    rfl
  · rw [hconfig, (hstart.after hafter).step?_nameless, hnone]
    rfl

end Ground

/-! ### A program -/

/-- All statements are accepted and come to values, with the outcomes and the session
    that result. -/
inductive Completes : Session → List Statement → List Outcome → Session → Prop where
  | nil (s : Session) : Completes s [] [] s
  | cons {s s' : Session} {st : Statement} {sts : List Statement} {o : Outcome}
      {os : List Outcome} : (s.exec st).result = .ok o → o.status = .normalForm →
      Completes (s.exec st).session sts os s' → Completes s (st :: sts) (o :: os) s'

def IsLet (b : String × Term) (st : Statement) : Prop := st.binder = some b.1 ∧ st.term = b.2

/-- The numbers of the binders of every statement of a program, once it is closed, fit in
    64-bit words. -/
def Numbered (s : Session) (sts : List Statement) : Prop :=
  ∀ p ∈ s.executed sts, (p.1.close p.2.term).1.binders ≤ 2 ^ 64

theorem Numbered.cons {s : Session} {st : Statement} {sts : List Statement}
    (h : s.Numbered (st :: sts)) : (s.close st.term).1.binders ≤ 2 ^ 64 ∧
      ∀ {o : Outcome}, (s.exec st).result = .ok o → (s.exec st).session.Numbered sts := by
  rw [Numbered, executed, List.forall_mem_cons] at h
  refine ⟨h.1, fun ho => ?_⟩
  have hrest := h.2
  rwa [ho] at hrest

/-- The program that is left, with the names of the bindings standing for their values. -/
def remaining (s : Session) (t : Term) : Nameless.Config :=
  ⟨t.nameless.bind (meaning s.bindings), s.store.nameless⟩

/-- A `let` does what the statement does, and puts its value in. -/
theorem Computes.after_letIn {s : Session} {st : Statement} {o : Outcome} (h : Computes s st o)
    {x : String} (hx : st.binder = some x) (t : Term) :
    after Nameless.Config.step? (o.steps + 1) (s.remaining (.letIn x st.term t)) =
      some ((s.exec st).session.remaining t) := by
  have hlet : s.remaining (.letIn x st.term t) =
      ⟨.letIn (st.term.nameless.bind (meaning s.bindings))
        ((t.namelessIn [x]).bind (meaning s.bindings)), s.store.nameless⟩ := by
    rw [remaining, Term.nameless, Term.namelessIn, Nameless.bind_letIn]
    rfl
  have hmeaning : meaning (s.exec st).session.bindings =
      Function.update (meaning s.bindings) x o.value.nameless := by
    rw [h.bindings, hx]
    exact meaning_cons x o.value s.bindings
  have hbody := Term.instantiate_namelessIn (closed_meaning s.bindings) o.value.closed_nameless x t []
  have hended := h.ended
  rw [after_add, hlet, Nameless.after_letIn h.steps, Option.bind_some, remaining, hmeaning, after]
  simp only [Nameless.Config.step?, Config.nameless, Nameless.Config.within, Nameless.step] at hended ⊢
  simp only [hended, Term.isValue_nameless, h.value, if_true, Option.bind_some, after]
  exact congrArg (fun u => some (Nameless.Config.mk u _)) hbody

/-- **The bindings of a program** take the reference machine through the `let`s. -/
theorem Completes.after_letMany {s s' : Session} {bs : List (String × Term)} {sts : List Statement}
    {os : List Outcome} (h : Completes s sts os s') (hs : s.Ground)
    (hsts : List.Forall₂ IsLet bs sts) (hparsed : ∀ st ∈ sts, st.term.Denotable) {e : Term}
    (hscope : ∀ x ∈ (Term.letMany bs e).freeVars, x ∈ s.bindings.map Prod.fst)
    (hbinders : (Term.letMany bs e).binders ≤ 2 ^ 64) (hnum : s.Numbered sts) :
    s'.Ground ∧ (∀ x ∈ e.freeVars, x ∈ s'.bindings.map Prod.fst) ∧ e.binders ≤ 2 ^ 64 ∧
      after Nameless.Config.step? ((os.map Outcome.steps).sum + bs.length)
        (s.remaining (.letMany bs e)) = some (s'.remaining e) := by
  induction h generalizing bs with
  | nil s =>
    cases hsts
    exact ⟨hs, hscope, hbinders, rfl⟩
  | @cons s s' st sts o os ho hn _ ih =>
    -- the first statement takes the outermost `let` away, and the rest starts from there
    obtain ⟨⟨x, v⟩, bs', ⟨hx, hv⟩, hsts', rfl⟩ := List.forall₂_cons_right_iff.mp hsts
    obtain rfl : st.term = v := hv
    have hlet : Term.letMany ((x, st.term) :: bs') e = .letIn x st.term (.letMany bs' e) := rfl
    rw [hlet] at hscope hbinders
    rw [Term.binders] at hbinders
    obtain ⟨hclosed, hnum⟩ := hnum.cons
    have hcomputes := computes_of_exec hs (hparsed st (.head _))
      (fun y hy => hscope y (Term.mem_freeVars_letIn.mpr (.inl hy))) (by omega) hclosed ho hn
    have hscope' : ∀ y ∈ (Term.letMany bs' e).freeVars,
        y ∈ (s.exec st).session.bindings.map Prod.fst := by
      intro y hy
      rw [hcomputes.bindings, hx]
      by_cases hyx : y = x
      · simp [hyx]
      · exact List.mem_cons_of_mem x (hscope y (Term.mem_freeVars_letIn.mpr (.inr ⟨hyx, hy⟩)))
    obtain ⟨hground, hfree, he, hafter⟩ := ih hcomputes.ground hsts'
      (fun st' hst' => hparsed st' (.tail _ hst')) hscope' (by omega) (hnum ho)
    refine ⟨hground, hfree, he, ?_⟩
    have hcount : ((o :: os).map Outcome.steps).sum + ((x, st.term) :: bs').length =
        (o.steps + 1) + ((os.map Outcome.steps).sum + bs'.length) := by
      rw [List.map_cons, List.sum_cons, List.length_cons]
      omega
    rw [hcount, after_add, hlet, hcomputes.after_letIn hx, Option.bind_some, hafter]

/-- **A session computes what the nested `let` computes.**  Let a new session accept
    statements `let x₁ = e₁`, …, `let xₙ = eₙ` and then a term, each with its free
    variables among the names bound before it, and let all of them come to values.  Then
    the nested program comes to a value whenever its bound admits the steps of all
    statements and one more for each `let`: after just that many steps, with the value of
    the last statement and the store of the session up to the names of binders. -/
theorem eval_letMany {maxSteps unifyFuel : Int64} {bs : List (String × Term)}
    {sts : List Statement} {st : Statement} (hsts : List.Forall₂ IsLet bs sts)
    (hparsed : ∀ u ∈ sts, Parsed u) (hparsed' : Parsed st)
    (hscope : (Term.letMany bs st.term).freeVars = ∅)
    {os : List Outcome} {o : Outcome} {s : Session}
    (h : Completes { maxSteps, unifyFuel } sts os s) (ho : (s.exec st).result = .ok o)
    (hn : o.status = .normalForm) (hbinders : (Term.letMany bs st.term).binders ≤ 2 ^ 64)
    (hnum : Numbered { maxSteps, unifyFuel } sts) (hnum' : (s.close st.term).1.binders ≤ 2 ^ 64)
    {m : Int64} (hm : (os.map Outcome.steps).sum + o.steps + bs.length ≤ stepBound m) :
    let r := eval (.letMany bs st.term) .empty m
    let s' := (s.exec st).session
    r.status = .normalForm ∧ r.steps = (os.map Outcome.steps).sum + o.steps + bs.length ∧
      r.final.term.alphaEq o.value = true ∧ r.final.store.next = s'.store.next ∧
      ∀ id, Option.Rel (fun a b : Term => a.alphaEq b = true)
        (r.final.store.get? id) (s'.store.get? id) := by
  intro r s'
  have hclosed : (Term.letMany bs st.term).Ground := fun x => by simp [hscope]
  obtain ⟨hs, hfree, he, hlets⟩ := h.after_letMany (lexical_new _ _ _) hsts
    (fun u hu => (hparsed u hu).denotable.term) (fun x hx => absurd hx (hclosed x)) hbinders hnum
  have hlast := computes_of_exec hs hparsed'.denotable.term hfree he hnum' ho hn
  -- the reference machine goes through all `let`s and then does the last statement
  have hstart : (Run.start (.letMany bs st.term) .empty).Apart fun _ => False :=
    Config.apart_start (fun x hx => hclosed x hx) (fun _ _ => False.elim)
      fun h => absurd h (by simp [Store.get?, Store.empty])
  have hnameless : (Run.start (.letMany bs st.term) .empty).nameless =
      remaining { maxSteps, unifyFuel } (.letMany bs st.term) := by
    rw [Config.nameless_start .empty hbinders fun x hx => absurd hx (hclosed x), remaining,
      hclosed.bind_nameless]
    rfl
  have hall := hstart.after_nameless
    ((os.map Outcome.steps).sum + bs.length + o.steps)
  rw [hnameless, after_add, hlets, Option.bind_some, remaining, hlast.steps] at hall
  -- and so does the machine with names
  obtain ⟨d, hd, hdeq⟩ := Option.map_eq_some_iff.mp hall.symm
  have hdnone : d.step? = none := by
    have hstep := (hstart.after hd).step?_nameless
    rw [hdeq, hlast.ended] at hstep
    exact Option.map_eq_none_iff.mp hstep.symm
  obtain ⟨hterm, hstore⟩ : d.term.nameless = o.value.nameless ∧
      d.store.nameless = s'.store.nameless := Nameless.Config.mk.inj hdeq
  have hcount : (os.map Outcome.steps).sum + bs.length + o.steps =
      (os.map Outcome.steps).sum + o.steps + bs.length := by omega
  have hr : r = ⟨d, 0 + ((os.map Outcome.steps).sum + o.steps + bs.length), Run.settled d.term⟩ :=
    Run.loop_of_after _ (hcount ▸ hd) hdnone hm 0 ()
  have hvalue : d.term.isValue = true := by
    rw [← d.term.isValue_nameless, hterm, Term.isValue_nameless, hlast.value]
  refine ⟨?_, ?_, ?_, ?_, fun id => ?_⟩
  · rw [hr]
    simp only [Run.settled, hvalue, if_true]
  · rw [hr, Nat.zero_add]
  · rw [hr]
    exact Term.alphaEq_iff.mpr hterm
  · rw [hr]
    exact congrArg Nameless.Store.next hstore
  · rw [hr]
    exact Store.rel_of_nameless_eq hstore id

/-- `f ()`, once `r` is an empty cell and `f` reads it. -/
def readCell : Statement := ⟨none, .app (.var "f") .unit, 0⟩

/-- `let r = ref nil`, `let f = λx. !r` and `f ()`, one by one and nested. -/
theorem eval_letMany_readCell :
    let t := Term.letMany [("r", emptyCell.term), ("f", reader.term)] readCell.term
    ∃ o, (withReader.exec readCell).result = .ok o ∧ (eval t .empty 5).status = .normalForm ∧
      (eval t .empty 5).steps = 5 ∧ (eval t .empty 5).final.term.alphaEq o.value = true := by
  intro t
  have hcell : (Session.exec { maxSteps := 0, unifyFuel := 0 } emptyCell).result =
      .ok ⟨some "r", .ref (.list (.var "_w0")), .region 0, .normalForm, 1⟩ := by cbv
  have hreader : (withCell.exec reader).result = .ok ⟨some "f", .all "T1" (.arrow (.var "T1")
      (.list (.var "_w0"))), .abs "_v0" (.deref (.region 0)), .normalForm, 0⟩ := by cbv
  have hread : (withReader.exec readCell).result =
      .ok ⟨none, .list (.var "_w0"), .nil, .normalForm, 2⟩ := by cbv
  -- the two bindings complete one after the other, from an empty session
  have hcompletes : Completes { maxSteps := 0, unifyFuel := 0 } [emptyCell, reader]
      [⟨some "r", .ref (.list (.var "_w0")), .region 0, .normalForm, 1⟩,
        ⟨some "f", .all "T1" (.arrow (.var "T1") (.list (.var "_w0"))),
          .abs "_v0" (.deref (.region 0)), .normalForm, 0⟩] withReader := by
    refine .cons hcell rfl ?_
    rw [exec_emptyCell]
    refine .cons hreader rfl ?_
    rw [exec_reader]
    exact .nil _
  have hnum : Numbered { maxSteps := 0, unifyFuel := 0 } [emptyCell, reader] := by
    simp only [Numbered, executed, hcell, exec_emptyCell, hreader, List.forall_mem_cons]
    exact ⟨by decide, by decide, by simp⟩
  have hparsed : Parsed readCell := .inl ⟨Glyph.ofString "f ()", by decide +kernel⟩
  have hlets : List.Forall₂ IsLet [("r", emptyCell.term), ("f", reader.term)]
      [emptyCell, reader] := .cons ⟨rfl, rfl⟩ (.cons ⟨rfl, rfl⟩ .nil)
  obtain ⟨hstatus, hsteps, hvalue, -⟩ := eval_letMany (m := 5) hlets
    (by simp [admits_emptyCell.parsed, admits_reader.parsed]) hparsed (by cbv) hcompletes hread rfl
    (by decide) hnum (by decide) (by decide)
  exact ⟨_, hread, hstatus, hsteps, hvalue⟩

end Session

end MiniML
