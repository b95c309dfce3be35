/-
  MiniML/Proofs/Session/Safety.lean
  =================================
  **Type safety of a session** — whatever a session has executed, a statement that it
  accepts never applies an operation to a value of the wrong type.

  Weak type variables stand for types that later statements may still choose.  What
  holds between two statements is therefore said for every choice: there are types
  of the regions with which the store is typed, and with which every binding has all
  the types of its scheme (`Session.Sound`).  A statement that resolves weak variables
  passes from the choices after it to those among the choices before it that it
  admits.

  This needs that the schemes are resolved without capture.  A statement is run
  safely if no scheme with weak variables quantifies a type variable that is issued
  for it (`Session.Admits`).  The hypothesis cannot be dropped: schemes quantify names
  such as `T1`, and these are issued again for every statement.  It is not the weakest
  one: a scheme may quantify an issued variable that never gets into what its weak
  variables stand for.
-/
import MiniML.Proofs.Eval.Safety
import MiniML.Proofs.Session.Weak
import MiniML.Proofs.Source.Denotable

namespace MiniML

/-! ### Closing a statement -/

/-- No types at all are kept by every term. -/
theorem Uniform.of_isEmpty {strict : Prop} {Ψ : StoreTyping} {t : Term} {ι : Type} [IsEmpty ι]
    {Γ : ι → Uses} {τ : ι → Ty} : Uniform strict Ψ t Γ τ := by
  induction t generalizing ι with
  | var | abs | int | nil | unit | region => exact fun i => isEmptyElim i
  | app => exact ⟨fun i => isEmptyElim i, fun i => isEmptyElim i⟩
  | letIn x v b ihv ihb =>
    refine ⟨fun _ _ => False, fun i => isEmptyElim i, fun i => isEmptyElim i,
      fun _ _ i => isEmptyElim i, ?_, ihb⟩
    have : IsEmpty { p : ι × Ty // False } := ⟨fun p => p.2⟩
    exact ihv
  | cons a l iha ihl => exact ⟨fun _ => .int, fun i => isEmptyElim i, iha, ihl⟩
  | head l ih | fix l ih | deref l ih => exact ih
  | tail l ih => exact ⟨⟨fun _ => .int, fun i => isEmptyElim i⟩, ih⟩
  | add l r ihl ihr | sub l r ihl ihr =>
    refine ⟨fun i => isEmptyElim i, ?_, ?_⟩
    · exact ihl
    · exact ihr
  | ifZero c t e ihc iht ihe => exact ⟨ihc, iht, ihe⟩
  | ifEmpty c t e ihc iht ihe => exact ⟨⟨fun _ => .int, ihc⟩, iht, ihe⟩
  | mkRef e ih => exact ⟨fun i => isEmptyElim i, fun _ => .int, fun i => isEmptyElim i, ih⟩
  | assign r v ihr ihv => exact ⟨fun i => isEmptyElim i, fun _ => .int, ihr, ihv⟩

/-- The latest value of each variable that is used has all the types at which the
    variable is used; so the variables may be replaced, the latest binding first. -/
theorem Uniform.close {Ψ : StoreTyping} {ι : Type} {τ : ι → Ty}
    (bs : List (String × Term)) {t : Term} {Γ : ι → Uses} (h : Uniform False Ψ t Γ τ)
    (hbs : ∀ x, (∃ i σ, Γ i x σ) → ∃ v, bs.lookup x = some v ∧
      Closed Ψ v fun p : { p : ι × Ty // Γ p.1 x p.2 } => p.1.2) :
    Closed Ψ (bs.foldl (fun t b => Term.subst b.1 b.2 t) t) τ := by
  induction bs generalizing t Γ with
  | nil =>
    refine h.weaken fun i x σ hx => ?_
    obtain ⟨v, hv, -⟩ := hbs x ⟨i, σ, hx⟩
    exact absurd hv (by simp)
  | cons b bs ih =>
    obtain ⟨y, w⟩ := b
    -- once `y` is replaced it may not be used any more
    refine ih (Γ := fun i => Function.update (Γ i) y fun _ => False)
      (Uniform.subst (S := fun i => Γ i y) ?_ ?_) ?_
    · simpa only [Function.update_idem, Function.update_eq_self] using h
    · by_cases huse : ∃ i σ, Γ i y σ
      · obtain ⟨v, hv, hclosed⟩ := hbs y huse
        obtain rfl : w = v := by simpa using hv
        exact hclosed
      · have : IsEmpty { p : ι × Ty // Γ p.1 y p.2 } := ⟨fun p => huse ⟨p.1.1, p.1.2, p.2⟩⟩
        exact Uniform.of_isEmpty
    · rintro x ⟨i, σ, hx⟩
      have hne : x ≠ y := by
        rintro rfl
        simp at hx
      simp only [Function.update_of_ne hne] at hx ⊢
      obtain ⟨v, hv, hclosed⟩ := hbs x ⟨i, σ, hx⟩
      refine ⟨v, by rwa [List.lookup_cons, beq_false_of_ne hne] at hv, ?_⟩
      exact hclosed.reindex (fun p => ⟨p.1, by simpa [Function.update_of_ne hne] using p.2⟩)
        fun _ => rfl

theorem Term.Denotable.allRegions {t : Term} {P : Int64 → Prop} (h : t.Denotable) :
    t.AllRegions P := by
  induction t with
  | var | int | nil | unit => exact trivial
  | region => exact h.elim
  | abs _ _ ih => exact ih h.2
  | letIn _ _ _ ih ih' => exact ⟨ih h.2.1, ih' h.2.2⟩
  | app _ _ ih ih' | cons _ _ ih ih' | add _ _ ih ih' | sub _ _ ih ih' | assign _ _ ih ih' =>
    exact ⟨ih h.1, ih' h.2⟩
  | ifZero _ _ _ ih ih' ih'' | ifEmpty _ _ _ ih ih' ih'' =>
    exact ⟨ih h.1, ih' h.2.1, ih'' h.2.2⟩
  | head _ ih | tail _ ih | fix _ ih | mkRef _ ih | deref _ ih => exact ih h

/-- No identifier is a name that a session gives to a binder. -/
theorem IsIdent.spares {x : String} (h : IsIdent x) {s : NameSupply} (hs : s.stem = "_s")
    (limit : Int) : s.Spares limit x := by
  rintro n - - rfl
  rw [NameSupply.nameAt, hs] at h
  obtain heq | hhead := h
  · have := congrArg (fun x => x.toList.length) heq
    simp at this
  · exact hhead (by simp)

namespace Session

/-! ### What holds between statements -/

/-- Each variable of the environment is bound, and its latest value has all the types
    of its scheme when the weak variables stand for what `f` gives them. -/
def HasValues (Ψ : StoreTyping) (f : String → Ty) (env : TypeEnv) (bs : List (String × Term)) :
    Prop :=
  ∀ ⦃x : String⦄ ⦃σ : Ty⦄, env[x]? = some σ → ∃ v, bs.lookup x = some v ∧
    Closed Ψ v fun p : { ρ : Ty // σ.HasInstance f ρ } => p.1

section HasValues

variable {Ψ Ψ' : StoreTyping} {f : String → Ty} {env : TypeEnv} {bs : List (String × Term)}

theorem HasValues.mono (h : HasValues Ψ f env bs) (hΨ : ∀ id σ, Ψ id σ → Ψ' id σ) :
    HasValues Ψ' f env bs := by
  intro x σ hx
  obtain ⟨v, hv, hclosed⟩ := h hx
  exact ⟨v, hv, hclosed.mono hΨ⟩

/-- What a substitution resolves is one of the choices that were open before. -/
theorem HasValues.apply {θ : Subst} (hc : env.Cleared θ) (hθ : θ.Regular)
    (h : HasValues Ψ (fun v => (θ.resolve v).bind f) env bs) : HasValues Ψ f (env.apply θ) bs := by
  intro x ρ hx
  obtain ⟨σ, hσ, rfl⟩ := TypeEnv.getElem?_apply_some hx
  obtain ⟨v, hv, hclosed⟩ := h hσ
  refine ⟨v, hv, hclosed.reindex (fun p => ⟨p.1, ?_⟩) fun _ => rfl⟩
  exact ((hc hσ).2.hasInstance_apply hθ (hc hσ).1).mp p.2

theorem HasValues.insert (h : HasValues Ψ f env bs) (x : String) {σ : Ty} {v : Term}
    (hv : Closed Ψ v fun p : { ρ : Ty // σ.HasInstance f ρ } => p.1) :
    HasValues Ψ f (env.insert x σ) ((x, v) :: bs) := by
  intro y ρ hy
  rcases TypeEnv.getElem?_insert_some hy with ⟨rfl, rfl⟩ | ⟨hne, hy⟩
  · exact ⟨v, by simp, hv⟩
  · obtain ⟨w, hw, hclosed⟩ := h hy
    refine ⟨w, ?_, hclosed⟩
    rwa [List.lookup_cons, beq_false_of_ne hne]

end HasValues

/-- What holds of a session between two statements. -/
structure Sound (s : Session) : Prop where
  weak : s.weak.stem = "_w"
  names : s.names.stem = "_s" ∧ 0 ≤ s.names.count
  keeps : Keeps s.env
  idents : ∀ {x : String} {σ : Ty}, s.env[x]? = some σ → IsIdent x
  typed : ∀ f : String → Ty, (∀ v, (f v).Mono) →
    ∃ Ψ : StoreTyping, s.store.Typed Ψ ∧ HasValues Ψ f s.env s.bindings

theorem sound_new (maxSteps unifyFuel : Int64) : Sound { maxSteps, unifyFuel } where
  weak := rfl
  names := ⟨rfl, Int.le_refl 0⟩
  keeps := keeps_empty
  idents h := absurd h (by simp)
  typed _ _ := ⟨fun _ _ => False, Store.typed_empty, fun _ _ h => absurd h (by simp)⟩

/-! ### Statements that may be executed -/

/-- The statement is what a parser makes of some source. -/
def Parsed (st : Statement) : Prop :=
  (∃ source, parseStatement source = .ok st) ∨
    ∃ source sts, parseProgram source = .ok sts ∧ st ∈ sts

theorem Parsed.denotable {st : Statement} (h : Parsed st) : st.Denotable := by
  obtain ⟨source, h⟩ | ⟨source, sts, h, hmem⟩ := h
  · exact denotable_of_parseStatement h
  · exact denotable_of_parseProgram h st hmem

/-- The number of type variables that are issued for a statement. -/
def drawn (s : Session) (st : Statement) : Int :=
  Infer.drawn (unifyBudget s.unifyFuel) s.env st.term

/-- The evaluation of a statement. -/
def evaluation (s : Session) (st : Statement) : Run :=
  (evalWith (fun log n c => LogEntry.step n c.term c.store.size :: log) [] (s.close st.term).1
    s.store s.maxSteps).1

/-- The numbers that are drawn for a statement fit in 64-bit words. -/
structure Fits (s : Session) (st : Statement) : Prop where
  types : s.drawn st ≤ 2 ^ 63
  names : s.names.count + st.term.binders ≤ 2 ^ 63
  binders : (s.close st.term).1.binders ≤ 2 ^ 63
  regions : s.store.next.toInt + (s.evaluation st).steps ≤ 2 ^ 63 - 1

/-- No scheme with weak variables quantifies a type variable that is issued for the
    statement.  This suffices for resolving without capture and is more than that needs:
    it is asked of every scheme with weak variables, also where the statement leaves them
    alone or resolves them to types without the variable in question. -/
def Apart (s : Session) (st : Statement) : Prop :=
  ∀ q, s.env.Quantifies q → (NameSupply.forTypes "" 0).Spares (s.drawn st) q

/-- A statement of a program whose free variables are bound and whose numbers do not
    overflow. -/
structure WellPosed (s : Session) (st : Statement) : Prop where
  parsed : Parsed st
  bound : ∀ x ∈ st.term.freeVars, x ∈ s.env
  fits : s.Fits st

/-- A statement for which, moreover, no type variable can be captured. -/
structure Admits (s : Session) (st : Statement) : Prop extends WellPosed s st where
  apart : s.Apart st

/-- A statement is rejected and leaves its place in the count, or it has a typing and
    is evaluated. -/
theorem exec_cases (s : Session) (st : Statement) :
    (∃ e, (s.exec st).result = .error e ∧ (s.exec st).session = { s with count := s.count + 1 }) ∨
    ∃ r, inferType (unifyBudget s.unifyFuel) s.env st.term = .ok r ∧
      (s.exec st).result = .ok ⟨st.binder, (s.assign st r).type, (s.evaluation st).final.term,
        (s.evaluation st).status, (s.evaluation st).steps⟩ ∧
      (s.exec st).session =
        { s with
          weak := (s.assign st r).weak
          names := (s.close st.term).2
          store := (s.evaluation st).final.store
          env := (s.assign st r).env
          bindings := (st.binder.map (·, (s.evaluation st).final.term)).toList ++ s.bindings
          count := s.count + 1 } := by
  rw [exec]
  cases h : inferType (unifyBudget s.unifyFuel) s.env st.term with
  | error e => exact .inl ⟨_, rfl, rfl⟩
  | ok r => exact .inr ⟨r, rfl, rfl, rfl⟩

/-! ### One statement -/

section Exec

variable {s : Session} {st : Statement} {r : Typing}

theorem Admits.typed (ha : s.Admits st) (hs : Sound s)
    (hr : inferType (unifyBudget s.unifyFuel) s.env st.term = .ok r) : Typed s.env st.term r :=
  hs.keeps.typed ha.bound ha.fits.types ha.apart hr

/-- The value of a statement has all types that the statement has for choices that the
    environment does not tell apart. -/
theorem Admits.evaluation (ha : s.Admits st) (hs : Sound s) (ht : Typed s.env st.term r)
    {Ψ : StoreTyping} (hstore : s.store.Typed Ψ) {f : String → Ty}
    (hvals : HasValues Ψ f s.env s.bindings) {ι : Type} [Nonempty ι] {χ : ι → String → Ty}
    (hχ : ∀ i v, (χ i v).Mono) (hexp : st.term.isExpansive = true → ∀ i j : ι, i = j)
    (henv : ∀ i, (s.env.apply r.subst).instances (χ i) = s.env.instances f) :
    ∃ Ψ' : StoreTyping, (∀ id σ, Ψ id σ → Ψ' id σ) ∧
      (s.evaluation st).final.store.Typed Ψ' ∧
      Closed Ψ' (s.evaluation st).final.term fun i => r.type.bind (χ i) := by
  have huniform := ht.typing.uniform (Ψ := Ψ) ha.parsed.denotable.term.allRegions hχ hexp
    (Γ := fun _ => s.env.instances f) fun i x σ hx => henv i ▸ hx
  have hrenamed : Uniform False Ψ (st.term.alphaConvert ∅ s.names).1 (fun _ => s.env.instances f)
      fun i => r.type.bind (χ i) := by
    refine huniform.relax.alphaConvert (Int.le_refl _) hs.names.2 ha.fits.names fun _ x σ hx => ?_
    have hget : ((∅ : Renaming)[x]?).getD x = x := by simp
    rw [hget]
    refine ⟨hx, ?_⟩
    obtain ⟨ρ, hρ, -⟩ := hx
    exact (hs.idents hρ).spares hs.names.1 _
  refine Closed.run _ [] hstore ha.fits.binders ha.fits.regions (Uniform.close s.bindings hrenamed ?_)
  rintro x ⟨-, σ, ρ, hρ, -⟩
  obtain ⟨v, hv, hclosed⟩ := hvals hρ
  refine ⟨v, hv, hclosed.reindex (fun p => ⟨p.1.2, ?_⟩) fun _ => rfl⟩
  obtain ⟨ρ', hρ', hi⟩ := p.2
  exact Option.some.inj (hρ.symm.trans hρ') ▸ hi

/-- After a statement the store and the bindings are typed for every choice. -/
theorem Admits.hasValues (ha : s.Admits st) (hs : Sound s) (ht : Typed s.env st.term r)
    {w : Subst} (hw : Assigns s st r w) {f : String → Ty} (hf : ∀ v, (f v).Mono) :
    ∃ Ψ : StoreTyping, (s.evaluation st).final.store.Typed Ψ ∧
      HasValues Ψ f (s.assign st r).env
        ((st.binder.map (·, (s.evaluation st).final.term)).toList ++ s.bindings) := by
  let f₁ : String → Ty := fun u => (w.resolve u).bind f
  have hf₁ : ∀ u, (f₁ u).Mono := fun u => (hw.regular.mono_resolve u).bind hf
  have hτ := ht.mono
  obtain ⟨Ψ, hstore, hvals⟩ := hs.typed (fun v => (r.subst.resolve v).bind f₁)
    fun v => (ht.regular.mono_resolve v).bind hf₁
  have henv := ht.cleared.instances_apply ht.regular f₁
  -- the bindings that were there
  have hold : ∀ {Ψ' : StoreTyping}, (∀ id σ, Ψ id σ → Ψ' id σ) →
      HasValues Ψ' f ((s.env.apply r.subst).apply w) s.bindings := fun hΨ =>
    ((hvals.mono hΨ).apply ht.cleared ht.regular).apply hw.cleared hw.regular
  have hassign := hw.env
  cases hb : st.binder with
  | none =>
    obtain ⟨Ψ', hΨ, hstore', -⟩ := ha.evaluation hs ht hstore hvals (χ := fun _ : Unit => f₁)
      (fun _ => hf₁) (fun _ _ _ => rfl) fun _ => henv
    rw [hb] at hassign
    exact ⟨Ψ', hstore', hassign ▸ hold hΨ⟩
  | some x =>
    let ι := { ρ : Ty // (Infer.letScheme (s.env.apply r.subst) st.term r.type).HasInstance f₁ ρ }
    have : Nonempty ι := ⟨⟨_, hasInstance_letScheme hτ hf₁⟩⟩
    choose χ hχ hsame heq using fun p : ι => exists_choice hτ hf₁ p.2
    obtain ⟨Ψ', hΨ, hstore', hvalue⟩ := ha.evaluation hs ht hstore hvals hχ
      (fun hexp i j => Subtype.ext ((unique_of_isExpansive hτ hexp i.2).trans
        (unique_of_isExpansive hτ hexp j.2).symm)) fun p => (hsame p).trans henv
    rw [hb] at hassign
    refine ⟨Ψ', hstore', ?_⟩
    rw [hassign]
    have hinst : ∀ {ρ : Ty}, (w.apply (Infer.letScheme (s.env.apply r.subst) st.term
        r.type)).HasInstance f ρ → (Infer.letScheme (s.env.apply r.subst) st.term
        r.type).HasInstance f₁ ρ :=
      ((hw.scheme x hb).hasInstance_apply hw.regular (Infer.prenex_letScheme hτ)).mp
    refine (hold hΨ).insert x (hvalue.reindex (fun p => ⟨p.1, hinst p.2⟩) fun p => ?_)
    exact (heq ⟨p.1, hinst p.2⟩).symm

/-- **What holds of a session is kept by a statement that it admits.** -/
theorem Admits.sound (ha : s.Admits st) (hs : Sound s) : Sound (s.exec st).session := by
  obtain ⟨e, -, hsession⟩ | ⟨r, hr, -, hsession⟩ := exec_cases s st
  · rw [hsession]
    exact ⟨hs.weak, hs.names, hs.keeps, hs.idents, hs.typed⟩
  · have ht := ha.typed hs hr
    have hw := ht.assigns hs.weak
    rw [hsession]
    refine ⟨(weakens_weakening s st r hs.weak).2.1, ?_, ht.keeps hs.keeps hs.weak, fun hx => ?_,
      fun f hf => ha.hasValues hs ht hw hf⟩
    · refine ⟨(st.term.stem_alphaConvert ∅ s.names).trans hs.names.1, ?_⟩
      have hcount := st.term.count_alphaConvert ∅ s.names
      have hpos := hs.names.2
      change 0 ≤ (st.term.alphaConvert ∅ s.names).2.count
      omega
    · -- names of the environment are identifiers: the old ones were, and the binder was parsed
      have hold : ∀ {x : String} {σ : Ty},
          ((s.env.apply r.subst).apply (s.weakening st r))[x]? = some σ → IsIdent x := by
        intro x σ hx
        obtain ⟨σ₁, hσ₁, -⟩ := TypeEnv.getElem?_apply_some hx
        obtain ⟨σ₀, hσ₀, -⟩ := TypeEnv.getElem?_apply_some hσ₁
        exact hs.idents hσ₀
      have hassign := hw.env
      cases hb : st.binder with
      | none =>
        rw [hb] at hassign
        exact hold (hassign ▸ hx)
      | some y =>
        rw [hb] at hassign
        rcases TypeEnv.getElem?_insert_some (hassign ▸ hx) with ⟨rfl, -⟩ | ⟨-, hx⟩
        · exact ha.parsed.denotable.binder _ hb
        · exact hold hx

/-- A statement that is accepted and gets stuck does so for a reason that types could
    not exclude. -/
theorem Admits.stalls (ha : s.Admits st) (hs : Sound s) {o : Outcome}
    (ho : (s.exec st).result = .ok o) (hstuck : o.status = .stuck) :
    Config.Stalls ⟨o.value, (s.exec st).session.store⟩ := by
  obtain ⟨e, he, -⟩ | ⟨r, hr, hresult, hsession⟩ := exec_cases s st
  · rw [he] at ho
    exact absurd ho (by simp)
  · rw [hresult] at ho
    obtain rfl := Except.ok.inj ho
    have ht := ha.typed hs hr
    obtain ⟨Ψ, hstore, hvals⟩ := hs.typed (fun v => (r.subst.resolve v).bind fun _ => .int)
      fun v => (ht.regular.mono_resolve v).bind fun _ => trivial
    obtain ⟨Ψ', -, hstore', hvalue⟩ := ha.evaluation hs ht hstore hvals
      (χ := fun (_ : Unit) _ => .int) (fun _ _ => trivial) (fun _ _ _ => rfl)
      fun _ => ht.cleared.instances_apply ht.regular _
    have hended : (s.evaluation st).Ended := Run.loop_ended _ _ _ _ _
    rw [hsession]
    exact hended.stalls hstore' hvalue hstuck

end Exec

/-! ### Checking the hypotheses -/

instance {names : NameSet} {p : String → Prop} [DecidablePred p] :
    Decidable (∀ x ∈ names, p x) :=
  decidable_of_iff (∀ x ∈ names.toList, p x) (by simp only [Std.ExtTreeSet.mem_toList])

theorem apart_iff {s : Session} {st : Statement} : s.Apart st ↔
    ∀ b ∈ s.env.toList, b.2.freeVars ≠ [] → ∀ q ∈ b.2.splitAll.1,
      ∀ n ∈ List.range (s.drawn st).toNat, q ≠ (NameSupply.forTypes "" 0).nameAt n := by
  constructor
  · rintro h ⟨x, σ⟩ hb hne q hq n hn
    rw [List.mem_range] at hn
    exact h q ⟨x, σ, Std.ExtTreeMap.mem_toList_iff_getElem?_eq_some.mp hb, hne, hq⟩ n
      (by simp [NameSupply.forTypes]) (by omega)
  · rintro h q ⟨x, σ, hx, hne, hq⟩ n hn hlt
    change 0 ≤ n at hn
    obtain ⟨k, rfl⟩ := Int.eq_ofNat_of_zero_le hn
    exact h (x, σ) (Std.ExtTreeMap.mem_toList_iff_getElem?_eq_some.mpr hx) hne q hq k
      (List.mem_range.mpr (by omega))

instance (s : Session) (st : Statement) : Decidable (s.Apart st) :=
  decidable_of_iff' _ apart_iff

/-- The numbers that are drawn for a statement. -/
def demand (s : Session) (st : Statement) : Int × Int × Int × Int :=
  (s.drawn st, s.names.count + st.term.binders, ((s.close st.term).1.binders : Int),
    s.store.next.toInt + (s.evaluation st).steps)

theorem fits_of_demand {s : Session} {st : Statement} {a b c d : Int}
    (h : s.demand st = (a, b, c, d)) (ha : a ≤ 2 ^ 63) (hb : b ≤ 2 ^ 63) (hc : c ≤ 2 ^ 63)
    (hd : d ≤ 2 ^ 63 - 1) : s.Fits st := by
  obtain ⟨rfl, rfl, rfl, rfl⟩ : _ ∧ _ ∧ _ ∧ _ := by simpa only [demand, Prod.mk.injEq] using h
  exact ⟨ha, hb, by omega, hd⟩

/-! ### Sessions -/

/-- The statements of a program that are executed, each with the session that executes
    it: all up to the first that is rejected. -/
def executed (s : Session) : List Statement → List (Session × Statement)
  | [] => []
  | st :: rest => (s, st) ::
    match (s.exec st).result with
    | .error _ => []
    | .ok _ => (s.exec st).session.executed rest

/-- The sessions that statements, programs and resets lead to, if every statement has
    the property `P` in the session that executes it. -/
inductive Reached (P : Session → Statement → Prop) : Session → Prop where
  | new (maxSteps unifyFuel : Int64) : Reached P { maxSteps, unifyFuel }
  | exec {s : Session} {st : Statement} : Reached P s → P s st → Reached P (s.exec st).session
  | run {s : Session} {source : List Glyph} : Reached P s →
      (∀ sts, parseProgram source = .ok sts → ∀ p ∈ s.executed sts, P p.1 p.2) →
      Reached P (s.run source).session
  | reset {s : Session} : Reached P s → Reached P s.reset

/-- What holds of a new session and is kept by every statement that may be executed holds
    of every session that is reached. -/
theorem Reached.invariant {P : Session → Statement → Prop} {I : Session → Prop}
    (hnew : ∀ maxSteps unifyFuel, I { maxSteps, unifyFuel })
    (hexec : ∀ {s : Session} {st : Statement}, I s → P s st → I (s.exec st).session)
    {s : Session} (h : Reached P s) : I s := by
  have hall : ∀ {sts : List Statement} {s : Session}, I s → (∀ p ∈ s.executed sts, P p.1 p.2) →
      I (s.execAll sts).session := by
    intro sts
    induction sts with
    | nil => exact fun hs _ => hs
    | cons st rest ih =>
      intro s hs hP
      rw [executed, List.forall_mem_cons] at hP
      have hnext := hexec hs hP.1
      rw [execAll]
      cases h : (s.exec st).result with
      | error e => exact hnext
      | ok o =>
        rw [h] at hP
        exact ih hnext hP.2
  induction h with
  | new maxSteps unifyFuel => exact hnew maxSteps unifyFuel
  | exec _ hP hs => exact hexec hs hP
  | @run s source _ hP hs =>
    rw [Session.run]
    cases hp : parseProgram source with
    | error e => exact hs
    | ok sts => exact hall hs (hP sts hp)
  | @reset s _ _ => exact hnew s.maxSteps s.unifyFuel

/-- What holds between two statements holds of every session that is reached. -/
theorem Reached.sound {s : Session} (h : Reached Admits s) : Sound s :=
  h.invariant sound_new fun hs ha => ha.sound hs

/-- **Type safety of sessions.**  However a session was reached, a statement that it
    admits and accepts is stuck only where types do not help: a further step changes
    nothing, or an evaluated part takes `nil` apart or looks into a `fix` that does not
    unfold. -/
theorem exec_safe {s : Session} (hs : s.Reached Admits) {st : Statement} (ha : s.Admits st)
    {o : Outcome} (ho : (s.exec st).result = .ok o) (hstuck : o.status = .stuck) :
    Config.Stalls ⟨o.value, (s.exec st).session.store⟩ :=
  ha.stalls hs.sound ho hstuck

/-! ### A session that is safe, and one that is not -/

/-- `let r = ref nil`. -/
def emptyCell : Statement := ⟨some "r", .mkRef .nil, 0⟩

/-- The session after `let r = ref nil`. -/
def withCell : Session :=
  { maxSteps := 0, unifyFuel := 0, weak := ⟨"_w", 1⟩, store := Store.empty.set 0 .nil, count := 1,
    env := (∅ : TypeEnv).insert "r" (.ref (.list (.var "_w0"))), bindings := [("r", .region 0)] }

theorem exec_emptyCell :
    (Session.exec { maxSteps := 0, unifyFuel := 0 } emptyCell).session = withCell := by cbv

theorem admits_emptyCell : Admits { maxSteps := 0, unifyFuel := 0 } emptyCell where
  parsed := .inl ⟨Glyph.ofString "let r = ref nil", by decide +kernel⟩
  bound := by decide +kernel
  fits := fits_of_demand (a := 1) (b := 0) (c := 0) (d := 1) (by cbv) (by decide) (by decide)
    (by decide) (by decide)
  apart := of_decide_eq_true (by cbv)

/-- `let f = let i = λz. λy. z in λx. !r`; the scheme of `f` quantifies `T3`. -/
def lateReader : Statement :=
  ⟨some "f", .letIn "i" (.abs "z" (.abs "y" (.var "z"))) (.abs "x" (.deref (.var "r"))), 0⟩

/-- The session after that. -/
def withLateReader : Session :=
  { withCell with
    names := ⟨"_s", 4⟩, count := 2
    env := withCell.env.insert "f" (.all "T3" (.arrow (.var "T3") (.list (.var "_w0"))))
    bindings := [("f", .abs "_v3" (.deref (.region 0))), ("r", .region 0)] }

theorem exec_lateReader : (withCell.exec lateReader).session = withLateReader := by cbv

theorem admits_lateReader : withCell.Admits lateReader where
  parsed := .inl ⟨Glyph.ofString "let f = let i = \\z. \\y. z in \\x. !r", by decide +kernel⟩
  bound := by decide +kernel
  fits := fits_of_demand (a := 5) (b := 4) (c := 4) (d := 2) (by cbv) (by decide) (by decide)
    (by decide) (by decide)
  apart := of_decide_eq_true (by cbv)

/-- `head (!r)`. -/
def headOfCell : Statement := ⟨none, .head (.deref (.var "r")), 0⟩

theorem apart_headOfCell : withLateReader.Apart headOfCell := by
  have henv : withLateReader.env.toList = [("f", .all "T3" (.arrow (.var "T3")
    (.list (.var "_w0")))), ("r", .ref (.list (.var "_w0")))] := by cbv
  have hdrawn : withLateReader.drawn headOfCell = 3 := by cbv
  rw [apart_iff, henv, hdrawn]
  decide +kernel

theorem admits_headOfCell : withLateReader.Admits headOfCell where
  parsed := .inl ⟨Glyph.ofString "head (!r)", by decide +kernel⟩
  bound := by decide +kernel
  fits := fits_of_demand (a := 3) (b := 4) (c := 0) (d := 2) (by cbv) (by decide) (by decide)
    (by decide) (by decide)
  apart := apart_headOfCell

/-- The head of an empty list in a cell, while a scheme with a weak variable is kept. -/
theorem exec_safe_headOfCell :
    withLateReader.Reached Admits ∧ withLateReader.Admits headOfCell ∧
      ∃ o, (withLateReader.exec headOfCell).result = .ok o ∧ o.status = .stuck ∧
        Config.Stalls ⟨o.value, (withLateReader.exec headOfCell).session.store⟩ := by
  have hcell : withCell.Reached Admits :=
    exec_emptyCell ▸ (Reached.new 0 0).exec admits_emptyCell
  have hreader : withLateReader.Reached Admits :=
    exec_lateReader ▸ hcell.exec admits_lateReader
  have hresult : (withLateReader.exec headOfCell).result.toOption.map (·.status) =
      some .stuck := by cbv
  cases h : (withLateReader.exec headOfCell).result with
  | error e =>
    rw [h] at hresult
    exact absurd hresult (by simp [Except.toOption])
  | ok o =>
    rw [h] at hresult
    have hstuck : o.status = .stuck := Option.some.inj hresult
    exact ⟨hreader, admits_headOfCell, o, rfl, hstuck,
      exec_safe hreader admits_headOfCell h hstuck⟩

/-- `let f = λx. !r`; the scheme of `f` quantifies `T1`. -/
def reader : Statement := ⟨some "f", .abs "x" (.deref (.var "r")), 0⟩

/-- The session after `let r = ref nil` and this. -/
def withReader : Session :=
  { withCell with
    names := ⟨"_s", 1⟩, count := 2
    env := withCell.env.insert "f" (.all "T1" (.arrow (.var "T1") (.list (.var "_w0"))))
    bindings := [("f", .abs "_v0" (.deref (.region 0))), ("r", .region 0)] }

theorem exec_reader : (withCell.exec reader).session = withReader := by cbv

theorem admits_reader : withCell.Admits reader where
  parsed := .inl ⟨Glyph.ofString "let f = \\x. !r", by decide +kernel⟩
  bound := by decide +kernel
  fits := fits_of_demand (a := 3) (b := 1) (c := 1) (d := 1) (by cbv) (by decide) (by decide)
    (by decide) (by decide)
  apart := of_decide_eq_true (by cbv)

/-- `:= r (cons (λy. y) nil)`; what `_w0` stands for mentions `T1`. -/
def storeIdentity : Statement :=
  ⟨none, .assign (.var "r") (.cons (.abs "y" (.var "y")) .nil), 0⟩

/-- The session after that: the quantifier of `f` has captured `T1`. -/
def withCapture : Session :=
  { withReader with
    weak := ⟨"_w", 2⟩, names := ⟨"_s", 2⟩, count := 3
    store := Store.empty.set 0 (.cons (.abs "_v0" (.var "_v0")) .nil)
    env := ((∅ : TypeEnv).insert "r" (.ref (.list (.arrow (.var "_w1") (.var "_w1"))))).insert "f"
      (.all "T1" (.arrow (.var "T1") (.list (.arrow (.var "T1") (.var "T1"))))) }

theorem exec_storeIdentity : (withReader.exec storeIdentity).session = withCapture := by cbv

theorem wellPosed_storeIdentity : withReader.WellPosed storeIdentity where
  parsed := .inl ⟨Glyph.ofString ":= r (cons (\\y. y) nil)", by decide +kernel⟩
  bound := by decide +kernel
  fits := fits_of_demand (a := 3) (b := 2) (c := 1) (d := 2) (by cbv) (by decide) (by decide)
    (by decide) (by decide)

/-- `let u = := r (cons (λy. add y 1) nil) in head (f ()) ()`. -/
def misuse : Statement :=
  ⟨none, .letIn "u" (.assign (.var "r") (.cons (.abs "y" (.add (.var "y") (.int 1))) .nil))
    (.app (.head (.app (.var "f") .unit)) .unit), 0⟩

theorem wellPosed_misuse : withCapture.WellPosed misuse where
  parsed := .inl ⟨Glyph.ofString
    "let u = := r (cons (\\y. add y 1) nil) in head (f ()) ()", by decide +kernel⟩
  bound := by decide +kernel
  fits := fits_of_demand (a := 8) (b := 4) (c := 3) (d := 7) (by cbv) (by decide) (by decide)
    (by decide) (by decide)

/-- Without the last condition on statements sessions are not safe: `misuse` is
    accepted, and adds `1` to `()`. -/
theorem exec_not_safe_of_capture :
    ∃ (s : Session) (st : Statement) (o : Outcome), s.Reached WellPosed ∧ s.WellPosed st ∧
      (s.exec st).result = .ok o ∧ o.status = .stuck ∧
        ¬ Config.Stalls ⟨o.value, (s.exec st).session.store⟩ := by
  have hcell : withCell.Reached WellPosed :=
    exec_emptyCell ▸ (Reached.new 0 0).exec admits_emptyCell.toWellPosed
  have hreader : withReader.Reached WellPosed :=
    exec_reader ▸ hcell.exec admits_reader.toWellPosed
  have hcapture : withCapture.Reached WellPosed :=
    exec_storeIdentity ▸ hreader.exec wellPosed_storeIdentity
  have hresult : (withCapture.exec misuse).result.toOption.map (fun o => (o.value, o.status)) =
      some (.add .unit (.int 1), .stuck) := by cbv
  cases h : (withCapture.exec misuse).result with
  | error e =>
    rw [h] at hresult
    exact absurd hresult (by simp [Except.toOption])
  | ok o =>
    rw [h] at hresult
    obtain ⟨hvalue, hstuck⟩ := Prod.mk.inj (Option.some.inj hresult)
    refine ⟨_, _, o, hcapture, wellPosed_misuse, h, hstuck, ?_⟩
    rw [hvalue]
    rintro (⟨c, hc, -⟩ | ⟨u, hu, hb⟩)
    · simp [Config.step?, step, Rule.arith?] at hc
    · simp only [Term.evaluated, List.cons_append, List.nil_append, List.mem_cons,
        List.not_mem_nil, or_false] at hu
      rcases hu with rfl | rfl | rfl <;> simp [Term.isBlocked] at hb

end Session

end MiniML
