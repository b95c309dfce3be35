/-
  MiniML/Proofs/Typing/Principal.lean
  ===================================
  **Inference finds principal types** — whatever type a term has in an instance of
  an environment, inference answers with a type of which that one is an instance;
  the only failure it can then end with is a spent unification budget.

  The type variables of the environment stand for what a function `R` gives them.
  A run is complete if `R` can be continued to the variables that the run issues
  such that it satisfies what the run forces and makes the inferred type equal to
  the given one (`Finds`).  A continuation never changes what `R` says of names
  that were known before, which is what lets the parts of a term be continued one
  after the other.
-/
import MiniML.Proofs.Typing.Soundness
import MiniML.Proofs.Typing.Uniform

namespace MiniML.Infer

open Subst

/-- A typing at one type, when the type variables of the environment stand for what
    `R` gives them.  Regions have every type. -/
def Has (env : TypeEnv) (R : String → Ty) (t : Term) (T : Ty) : Prop :=
  Uniform True (fun _ c => c.Mono) t (fun _ : Unit => env.instances R) fun _ => T

/-- `R'` differs from `R` on names issued between `s` and `s'` only. -/
def Continues (s s' : NameSupply) (R R' : String → Ty) : Prop :=
  ∀ v, ¬ s.Issued s' v → R' v = R v

/-- The answer can be made equal to the type `T` by continuing `R`. -/
def Finds (s : NameSupply) (R : String → Ty) (T : Ty) (a : Ty × Subst) (s' : NameSupply) : Prop :=
  ∃ R', Continues s s' R R' ∧ Respects R' a.2 ∧ a.1.bind R' = T

/-- The run has a result with the property `Q`, or its budget was spent. -/
def Succeeds {α : Type} (Q : α → NameSupply → Prop) : Except TypeError α × NameSupply → Prop
  | (.ok a, s) => Q a s
  | (.error e, _) => e.fault = .unify .timeout

/-- A part that infers `t` finds every type of `t`. -/
def IsComplete (limit : Int) (t : Term) (part : Part) : Prop :=
  ∀ ⦃env : TypeEnv⦄ ⦃s : NameSupply⦄ ⦃R : String → Ty⦄ ⦃T : Ty⦄, env.Ready s limit →
    Has env R t T → (part env s).2.count ≤ limit → Succeeds (Finds s R T) (part env s)

/-! ### Sequences -/

/-- A sequence succeeds if its first part does, and its second part does after every
    success of the first. -/
theorem Succeeds.bind {α β : Type} {m : InferM α} {f : α → InferM β} {s : NameSupply}
    {limit : Int} {P : α → NameSupply → Prop} {Q : β → NameSupply → Prop}
    (hg : ∀ a, Grows (f a)) (hl : ((m >>= f) s).2.count ≤ limit)
    (hm : (m s).2.count ≤ limit → Succeeds P (m s))
    (hf : ∀ a s₁, m s = (.ok a, s₁) → P a s₁ → s₁.count ≤ limit →
      (f a s₁).2.count ≤ limit → Succeeds Q (f a s₁)) : Succeeds Q ((m >>= f) s) := by
  rw [run_bind] at hl ⊢
  rcases hrun : m s with ⟨e | a, s₁⟩
  · rw [hrun] at hm hl
    exact hm hl
  · rw [hrun] at hm hl
    have hl₁ : s₁.count ≤ limit := Int.le_trans (hg a s₁).count hl
    exact hf a s₁ hrun (hm hl₁) hl₁ hl

/-- A unification that has a solution succeeds, and keeps the solution. -/
theorem unifyAt_complete {fuel : Nat} {whole : Term} {a b : Ty} {θ : Subst} {s : NameSupply}
    (hθ : θ.Regular) (ha : a.Mono) (hb : b.Mono) {R : String → Ty} (hR : Respects R θ)
    (heq : a.bind R = b.bind R) :
    Succeeds (fun θ' s' => s' = s ∧ Respects R θ') (unifyAt fuel whole a b θ s) := by
  have hsolves : Unify.Solves R [(a, b)] := Unify.solves_cons.mpr ⟨heq, Unify.solves_nil R⟩
  have hans := unify_answers fuel hθ ha hb
  rw [run_unifyAt]
  generalize unify fuel a b θ = r at hans
  match r, hans with
  | .ok θ', hans => exact ⟨rfl, (hans.respects_iff R).mpr ⟨hR, hsolves⟩⟩
  | .error .timeout, _ => rfl
  | .error (.mismatch _ _), hans => exact absurd hsolves (hans R hR)
  | .error (.occurs _ _), hans => exact absurd hsolves (hans R hR)

/-! ### Continuations -/

section Continues

variable {env : TypeEnv} {s s₁ s₂ : NameSupply} {limit : Int} {R R₁ R₂ : String → Ty}

theorem Continues.refl (s s' : NameSupply) (R : String → Ty) : Continues s s' R R :=
  fun _ _ => rfl

theorem Continues.trans (h : Continues s s₁ R R₁) (h' : Continues s₁ s₂ R₁ R₂)
    (hs : s.Before s₁) (hs' : s₁.Before s₂) : Continues s s₂ R R₂ := by
  intro v hv
  rw [h' v fun hi => hv (hi.earlier hs), h v fun hi => hv (hi.later hs')]

/-- The free names of the environment keep what they stand for. -/
theorem Continues.free (h : Continues s s₁ R R₁) (hr : env.Ready s limit)
    (hl : s₁.count ≤ limit) : ∀ v ∈ env.freeTypeVars, R₁ v = R v :=
  fun v hv => h v ((hr.free v hv).not_issued hl)

/-- What was known before a run keeps what it stands for. -/
theorem Continues.known (h : Continues s₁ s₂ R₁ R₂) (hr : env.Ready s limit)
    (hs : s.Before s₁) (hl : s₂.count ≤ limit) {v : String} (hv : Known env s s₁ v) :
    R₁ v = R₂ v :=
  (h v ((hv.spares hr.toSupplied hs).not_issued hl)).symm

theorem Continues.bind_eq (h : Continues s₁ s₂ R₁ R₂) (hr : env.Ready s limit)
    (hs : s.Before s₁) (hl : s₂.count ≤ limit) {τ : Ty} (hτ : Named env s s₁ τ) :
    τ.bind R₂ = τ.bind R₁ :=
  Ty.bind_congr fun v hv => (h.known hr hs hl (hτ.2 v hv)).symm

theorem Continues.respects (h : Continues s₁ s₂ R₁ R₂) (hr : env.Ready s limit)
    (hl : s₂.count ≤ limit) {θ : Subst} (hθ : Forces env s θ s₁) (hR : Respects R₁ θ) :
    Respects R₂ θ :=
  hR.congr hθ.within fun _ hv => h.known hr hθ.before hl hv

/-- A fresh variable may stand for anything. -/
theorem Continues.fresh (h : Continues s s₁ R R₁) (hs : s.Before s₁) (T : Ty) :
    Continues s s₁.fresh.2 R (Function.update R₁ s₁.fresh.1 T) := by
  refine h.trans (fun v hv => ?_) hs (NameSupply.before_fresh s₁)
  refine Function.update_of_ne (fun heq => hv ?_) T R₁
  rw [heq]
  exact NameSupply.issued_fresh s₁

theorem continues_fresh (s : NameSupply) (R : String → Ty) (T : Ty) :
    Continues s s.fresh.2 R (Function.update R s.fresh.1 T) :=
  (Continues.refl s s R).fresh (.refl s) T

theorem Has.congr {t : Term} {T : Ty} (h : Has env R t T)
    (heq : ∀ v ∈ env.freeTypeVars, R₁ v = R v) : Has env R₁ t T := by
  rw [Has, TypeEnv.instances_congr heq]
  exact h

/-- The typing of a second part, in the environment as the first part left it. -/
theorem Has.next {t : Term} {T : Ty} {θ : Subst} (h : Has env R t T) (hr : env.Ready s limit)
    (hl : s₁.count ≤ limit) (hθ : Forces env s θ s₁) (hc : Continues s s₁ R R₁)
    (hR : Respects R₁ θ) : Has (env.apply θ) R₁ t T := by
  rw [Has, (hθ.cleared hr hl).instances_of_respects hθ.regular hR]
  exact h.congr (hc.free hr hl)

end Continues

/-! ### The combinators -/

section Combinators

variable {env : TypeEnv} {s : NameSupply} {limit : Int} {fuel : Nat} {whole : Term}
  {R : String → Ty} {T : Ty}

/-- Two parts one after the other. -/
theorem both_complete {t₁ t₂ : Term} {first second : Part} (hs₁ : IsSound limit t₁ first)
    (hs₂ : IsSound limit t₂ second) (hc₁ : IsComplete limit t₁ first)
    (hc₂ : IsComplete limit t₂ second) (hg : ∀ env, Grows (second env)) {T₁ T₂ : Ty}
    (hr : env.Ready s limit) (ht₁ : Has env R t₁ T₁) (ht₂ : Has env R t₂ T₂)
    (hl : (both env first second s).2.count ≤ limit) :
    Succeeds (fun p s' => ∃ R', Continues s s' R R' ∧ Respects R' (p.1.2.compose p.2.2) ∧
      p.1.1.bind R' = T₁ ∧ (p.2.2.apply p.1.1).bind R' = T₁ ∧ p.2.1.bind R' = T₂)
      (both env first second s) := by
  refine Succeeds.bind (fun l => (hg _).bind fun _ => grows_pure _) hl (hc₁ hr ht₁) ?_
  rintro ⟨τ₁, θ₁⟩ s₁ hrun₁ ⟨R₁, hcont₁, hresp₁, heq₁⟩ hl₁ hl'
  have ha₁ := hs₁ hr.toSupplied hrun₁ hl₁
  have hready := ha₁.forces.ready hr hl₁
  refine Succeeds.bind (fun _ => grows_pure _) hl'
    (hc₂ hready (ht₂.next hr hl₁ ha₁.forces hcont₁ hresp₁)) ?_
  rintro ⟨τ₂, θ₂⟩ s₂ hrun₂ ⟨R₂, hcont₂, hresp₂, heq₂⟩ hl₂ -
  have ha₂ := hs₂ hready.toSupplied hrun₂ hl₂
  have heq₁' : τ₁.bind R₂ = T₁ := (hcont₂.bind_eq hr ha₁.forces.before hl₂ ha₁.named).trans heq₁
  refine ⟨R₂, hcont₁.trans hcont₂ ha₁.forces.before ha₂.forces.before, ?_, heq₁', ?_, heq₂⟩
  · exact (hcont₂.respects hr hl₂ ha₁.forces hresp₁).compose ha₁.forces.regular ha₂.forces.regular
      hresp₂
  · exact (ha₂.forces.regular.bind_apply_of_respects hresp₂ ha₁.named.1).trans heq₁'

theorem arith_complete {t₁ t₂ : Term} {left right : Part} (hs₁ : IsSound limit t₁ left)
    (hs₂ : IsSound limit t₂ right) (hc₁ : IsComplete limit t₁ left)
    (hc₂ : IsComplete limit t₂ right) (hg : ∀ env, Grows (right env))
    (rule : ∀ {env R T}, Has env R whole T → T = .int ∧ Has env R t₁ .int ∧ Has env R t₂ .int) :
    IsComplete limit whole (arith fuel whole · left right) := by
  intro env s R T hr ht hl
  obtain ⟨rfl, ht₁, ht₂⟩ := rule ht
  refine Succeeds.bind
    (fun _ => grows_unifyAt.bind fun _ => grows_unifyAt.bind fun _ => grows_pure _) hl
    (both_complete hs₁ hs₂ hc₁ hc₂ hg hr ht₁ ht₂) ?_
  rintro ⟨⟨τ₁, θ₁⟩, ⟨τ₂, θ₂⟩⟩ s₂ hrun ⟨R', hcont, hresp, heq₁, -, heq₂⟩ hl₂ hl'
  obtain ⟨⟨ha₁, -⟩, ha₂⟩ := both_sound hs₁ hs₂ hg hr.toSupplied hrun hl₂
  refine Succeeds.bind (fun _ => grows_unifyAt.bind fun _ => grows_pure _) hl'
    (fun _ => unifyAt_complete ha₁.forces.regular ha₁.named.1 (b := .int) trivial hresp heq₁) ?_
  rintro θ₃ s₃ hu ⟨rfl, hresp₃⟩ - hl'
  obtain ⟨-, hf₃, -⟩ := forces_unifyAt ha₁.forces ha₁.named (b := .int) ⟨trivial, by simp⟩ hu
  refine Succeeds.bind (fun _ => grows_pure _) hl'
    (fun _ => unifyAt_complete hf₃.regular ha₂.named.1 (b := .int) trivial hresp₃ heq₂) ?_
  rintro θ₄ s₄ - ⟨rfl, hresp₄⟩ - -
  exact ⟨R', hcont, hresp₄, rfl⟩

theorem eliminate_complete {t : Term} {operand : Part} {shape result : Ty → Ty}
    (hs : IsSound limit t operand) (hc : IsComplete limit t operand) (hshape : Shape shape)
    (hresult : Shape result)
    (rule : ∀ {env R T}, Has env R whole T → ∃ T', T = result T' ∧ Has env R t (shape T')) :
    IsComplete limit whole (eliminate fuel whole · operand shape result) := by
  intro env s R T hr ht hl
  obtain ⟨T', rfl, ht'⟩ := rule ht
  refine Succeeds.bind
    (fun _ => grows_fresh.bind fun _ => grows_unifyAt.bind fun _ => grows_pure _) hl
    (hc hr ht') ?_
  rintro ⟨τ₁, θ₁⟩ s₁ hrun ⟨R₁, hcont, hresp, heq⟩ hl₁ hl'
  have ha := hs hr.toSupplied hrun hl₁
  refine Succeeds.bind (P := fun v s' => v = .var s₁.fresh.1 ∧ s' = s₁.fresh.2)
    (fun _ => grows_unifyAt.bind fun _ => grows_pure _) hl' (fun _ => ⟨rfl, rfl⟩) ?_
  rintro _ _ - ⟨rfl, rfl⟩ hl₂ hl'
  -- the fresh variable stands for the part of the type that the form looks at
  have hcont' := hcont.fresh ha.forces.before T'
  have hnew := continues_fresh s₁ R₁ T'
  have hv : Function.update R₁ s₁.fresh.1 T' s₁.fresh.1 = T' := Function.update_self ..
  have hresp' := hnew.respects hr hl₂ ha.forces hresp
  refine Succeeds.bind (fun _ => grows_pure _) hl'
    (fun _ => unifyAt_complete ha.forces.regular ha.named.1 (hshape.mono (τ := .var _) trivial)
      hresp' ?_) ?_
  · rw [hnew.bind_eq hr ha.forces.before hl₂ ha.named, heq, hshape.bind, Ty.bind, hv]
  · rintro θ₂ s₃ hu ⟨rfl, hresp₂⟩ - -
    have hs₁ := NameSupply.before_fresh s₁
    obtain ⟨-, hf, -⟩ := forces_unifyAt (ha.forces.later hs₁) (ha.named.later hs₁)
      (hshape.named ha.forces.named_fresh) hu
    refine ⟨_, hcont', hresp₂, ?_⟩
    rw [hf.regular.bind_apply_of_respects hresp₂ (hresult.mono (τ := .var _) trivial),
      hresult.bind, Ty.bind, hv]

theorem branches_complete {t₁ t₂ : Term} {first second : Part} {θ : Subst} {s₀ : NameSupply}
    (hs₁ : IsSound limit t₁ first) (hs₂ : IsSound limit t₂ second)
    (hc₁ : IsComplete limit t₁ first) (hc₂ : IsComplete limit t₂ second)
    (hg : ∀ env, Grows (first env)) (hg' : ∀ env, Grows (second env)) (hr : env.Ready s₀ limit)
    (hθ : Forces env s₀ θ s) {R₀ : String → Ty} (hcont : Continues s₀ s R R₀)
    (hresp : Respects R₀ θ) (ht₁ : Has env R t₁ T) (ht₂ : Has env R t₂ T)
    (hl : (branches fuel whole env θ first second s).2.count ≤ limit) :
    Succeeds (Finds s₀ R T) (branches fuel whole env θ first second s) := by
  have hl₀ : s.count ≤ limit :=
    Int.le_trans (grows_branches hg hg' fuel whole env θ s).count hl
  -- the first branch, in the environment that the condition has left
  have hready := hθ.ready hr hl₀
  refine Succeeds.bind
    (fun _ => (hg' _).bind fun _ => grows_unifyAt.bind fun _ => grows_pure _) hl
    (hc₁ hready (ht₁.next hr hl₀ hθ hcont hresp)) ?_
  rintro ⟨τ₁, θ₁⟩ s₁ hrun₁ ⟨R₁, hcont₁, hresp₁, heq₁⟩ hl₁ hl'
  have ha := hs₁ hready.toSupplied hrun₁ hl₁
  have ha₁ := ha.next hθ hr.toSupplied hl₁
  have hready₁ := ha₁.forces.ready hr hl₁
  have hcont₁' := hcont.trans hcont₁ hθ.before ha.forces.before
  have hresp₁' := (hcont₁.respects hr hl₁ hθ hresp).compose hθ.regular ha.forces.regular hresp₁
  -- the second branch, in the environment that the first has left
  refine Succeeds.bind (fun _ => grows_unifyAt.bind fun _ => grows_pure _) hl'
    (hc₂ hready₁ (ht₂.next hr hl₁ ha₁.forces hcont₁' hresp₁')) ?_
  rintro ⟨τ₂, θ₂⟩ s₂ hrun₂ ⟨R₂, hcont₂, hresp₂, heq₂⟩ hl₂ hl'
  have hb := hs₂ hready₁.toSupplied hrun₂ hl₂
  have hb₂ := hb.next ha₁.forces hr.toSupplied hl₂
  -- both types stand for `T` under what the second has found, so they have a unifier
  have heq₁' : τ₁.bind R₂ = T :=
    (hcont₂.bind_eq hr ha₁.forces.before hl₂ ha₁.named).trans heq₁
  have hresp₂' := (hcont₂.respects hr hl₂ ha₁.forces hresp₁').compose ha₁.forces.regular
    hb.forces.regular hresp₂
  refine Succeeds.bind (fun _ => grows_pure _) hl' (fun _ => unifyAt_complete
    hb₂.forces.regular ha.named.1 hb.named.1 hresp₂' (heq₁'.trans heq₂.symm)) ?_
  rintro θ₃ s₃ hu ⟨rfl, hresp₃⟩ - -
  obtain ⟨-, hf, -⟩ := forces_unifyAt hb₂.forces
    (ha₁.named.later hb.forces.before) hb₂.named hu
  refine ⟨R₂, hcont₁'.trans hcont₂ ha₁.forces.before hb.forces.before, hresp₃, ?_⟩
  exact (hf.regular.bind_apply_of_respects hresp₃ ha.named.1).trans heq₁'

end Combinators

/-! ### Variables and binders -/

section Binders

variable {limit : Int} {fuel : Nat}

/-- The fresh variables of an instance may stand for what the quantified variables
    stand for. -/
theorem instantiate_complete {env : TypeEnv} {s : NameSupply} {R : String → Ty} {T σ : Ty}
    {x : String} (hr : env.Ready s limit) (hx : env[x]? = some σ) (hσ : σ.HasInstance R T)
    (hl : (σ.instantiate s).2.count ≤ limit) :
    ∃ R', Continues s (σ.instantiate s).2 R R' ∧ (σ.instantiate s).1.bind R' = T := by
  obtain ⟨number, hrange, hinj, heq⟩ := σ.instantiate_eq (hr.prenex hx) s
  obtain ⟨-, χ, hχ, rfl⟩ := hσ
  have hstart := hr.start
  have hbound := hr.bound
  classical
  let R' (v : String) : Ty :=
    if h : ∃ q ∈ σ.splitAll.1, s.nameAt (number q) = v then χ h.choose else R v
  -- different quantified variables have different fresh ones
  have hnew : ∀ q ∈ σ.splitAll.1, R' (s.nameAt (number q)) = χ q := by
    intro q hq
    have h : ∃ p ∈ σ.splitAll.1, s.nameAt (number p) = s.nameAt (number q) := ⟨q, hq, rfl⟩
    have hp := h.choose_spec
    have hrq := hrange q hq
    have hrp := hrange _ hp.1
    have hnum := NameSupply.nameAt_inj (by omega) (by omega) (by omega) (by omega) hp.2
    exact (dif_pos h).trans (congrArg χ (hinj _ hp.1 q hq hnum))
  have hold : Continues s (σ.instantiate s).2 R R' := by
    intro v hv
    refine dif_neg ?_
    rintro ⟨q, hq, rfl⟩
    exact hv ⟨number q, (hrange q hq).1, (hrange q hq).2, rfl⟩
  refine ⟨R', hold, ?_⟩
  rw [heq, Ty.bind_bind (hr.prenex hx)]
  refine Ty.bind_congr fun v hv => ?_
  by_cases hq : v ∈ σ.splitAll.1
  · simpa only [hq, if_true, Ty.bind] using hnew v hq
  · have hfree := Ty.mem_freeVars_iff_splitAll.mpr ⟨hv, hq⟩
    have hR := hold.free hr hl v (TypeEnv.freeVars_subset hx v hfree)
    simpa only [hq, if_false, Ty.bind] using hR.trans (hχ v hfree).symm

theorem var_complete (x : String) : IsComplete limit (.var x) (infer fuel · (.var x)) := by
  intro env s R T hr ht hl
  obtain ⟨σ, hx, hσ⟩ := ht ()
  simp only [infer] at hl ⊢
  refine Succeeds.bind (P := fun τ s' => ∃ R', Continues s s' R R' ∧ τ.bind R' = T)
    (fun _ => grows_pure _) hl ?_ ?_
  · simp only [lookup, hx, instantiate]
    exact fun hl => instantiate_complete hr hx hσ hl
  · rintro τ s₁ - ⟨R', hcont, heq⟩ - -
    exact ⟨R', hcont, respects_empty R', heq⟩

theorem abs_complete {x : String} {b : Term} (hs : IsSound limit b (infer fuel · b))
    (hc : IsComplete limit b (infer fuel · b)) :
    IsComplete limit (.abs x b) (infer fuel · (.abs x b)) := by
  intro env s R T hr ht hl
  obtain ⟨dom, cod, heq, hdom, hb⟩ := ht ()
  simp only at heq
  subst heq
  simp only [infer] at hl ⊢
  refine Succeeds.bind (P := fun v s' => v = .var s.fresh.1 ∧ s' = s.fresh.2)
    (fun _ => (infer_grows fuel b _).bind fun _ => grows_pure _) hl (fun _ => ⟨rfl, rfl⟩) ?_
  rintro _ _ - ⟨rfl, rfl⟩ hl₁ hl'
  have hcont := continues_fresh s R dom
  have hv : Function.update R s.fresh.1 dom s.fresh.1 = dom := Function.update_self ..
  have hready := hr.insert_fresh hl₁ x
  have hbody : Has (env.insert x (.var s.fresh.1)) (Function.update R s.fresh.1 dom) b cod := by
    refine hb.weaken fun _ y σ hy => ?_
    rw [TypeEnv.instances_insert, TypeEnv.instances_congr (hcont.free hr hl₁)]
    refine update_imp x (fun _ _ => id) (fun σ hσ => ?_) y σ hy
    rw [Ty.hasInstance_iff_of_mono (σ := .var _) trivial, Ty.bind, hv]
    exact ⟨hσ ▸ hdom, hσ.symm⟩
  refine Succeeds.bind (fun _ => grows_pure _) hl' (hc hready hbody) ?_
  rintro ⟨τ, θ⟩ s₂ hrun ⟨R₂, hcont₂, hresp, heq⟩ hl₂ -
  have ha := hs hready.toSupplied hrun hl₂
  refine ⟨R₂, hcont.trans hcont₂ (NameSupply.before_fresh s) ha.forces.before, hresp, ?_⟩
  have harg : R₂ s.fresh.1 = dom := by
    refine (hcont₂ _ ?_).trans hv
    exact (NameSupply.spares_fresh hr.start hr.bound).not_issued hl₂
  rw [Ty.bind, ha.forces.regular.bind_apply_of_respects hresp (t := .var _) trivial, Ty.bind, harg,
    heq]

/-- Two continuations that agree on an environment agree on its free names under
    what both satisfy. -/
theorem eq_of_mem_freeTypeVars_apply {env : TypeEnv} {θ : Subst} {R₁ R₂ : String → Ty}
    (hθ : θ.Regular) (hc : env.Cleared θ) (h₁ : Respects R₁ θ) (h₂ : Respects R₂ θ)
    (heq : ∀ v ∈ env.freeTypeVars, R₁ v = R₂ v) :
    ∀ v ∈ (env.apply θ).freeTypeVars, R₁ v = R₂ v := by
  intro v hv
  obtain ⟨w, hw, hv⟩ := hc.mem_freeTypeVars_apply.mp hv
  refine Ty.eq_of_bind_eq ?_ v hv
  rw [hθ.bind_resolve_of_respects h₁, hθ.bind_resolve_of_respects h₂, heq w hw]

theorem letIn_complete {x : String} {v b : Term} (hsv : IsSound limit v (infer fuel · v))
    (hsb : IsSound limit b (infer fuel · b)) (hcv : IsComplete limit v (infer fuel · v))
    (hcb : IsComplete limit b (infer fuel · b)) :
    IsComplete limit (.letIn x v b) (infer fuel · (.letIn x v b)) := by
  intro env s R T hr ht hl
  obtain ⟨S, hne, hmono, hstrict, hv, hb⟩ := ht
  have hvalue : ∀ σ, S () σ → Has env R v σ := fun σ hσ =>
    hv.reindex (fun _ => ⟨((), σ), hσ⟩) (fun _ => rfl) fun _ _ _ => id
  obtain ⟨σ₀, hσ₀⟩ := hne ()
  simp only [infer] at hl ⊢
  refine Succeeds.bind (P := fun a s' => ∀ σ, S () σ → Finds s R σ a s')
    (fun _ => (infer_grows fuel b _).bind fun _ => grows_pure _) hl (fun hl => ?_) ?_
  · -- one run of the value finds all of its types
    have hall : ∀ σ, S () σ → Succeeds (Finds s R σ) (infer fuel env v s) :=
      fun σ hσ => hcv hr (hvalue σ hσ) hl
    rcases hrun : infer fuel env v s with ⟨e | a, s₁⟩
    · have := hall σ₀ hσ₀
      rwa [hrun] at this
    · intro σ hσ
      have := hall σ hσ
      rwa [hrun] at this
  · rintro ⟨τ₁, θ₁⟩ s₁ hrun₁ hfinds hl₁ hl'
    have ha := hsv hr.toSupplied hrun₁ hl₁
    have hclear := ha.forces.cleared hr hl₁
    obtain ⟨R₁, hcont₁, hresp₁, heq₁⟩ := hfinds σ₀ hσ₀
    -- each type at which the value is used is an instance of its scheme
    have hscheme : ∀ σ, S () σ →
        (letScheme (env.apply θ₁) v (θ₁.apply τ₁)).HasInstance R₁ σ := by
      intro σ hσ
      obtain ⟨R₂, hcont₂, hresp₂, heq₂⟩ := hfinds σ hσ
      rw [← ha.forces.regular.bind_apply_of_respects hresp₂ ha.named.1] at heq₂
      rw [letScheme]
      split
      · rename_i hexp
        rw [Ty.hasInstance_iff_of_mono (ha.forces.regular.mono_apply ha.named.1),
          ha.forces.regular.bind_apply_of_respects hresp₁ ha.named.1]
        exact ⟨hmono () σ hσ, heq₁.trans (hstrict trivial hexp () σ₀ σ hσ₀ hσ)⟩
      · refine ((Ty.generalizes_generalize _ _).hasInstance_iff
          (ha.forces.regular.mono_apply ha.named.1)).mpr ⟨hmono () σ hσ, R₂, fun w _ hw => ?_, heq₂⟩
        refine eq_of_mem_freeTypeVars_apply ha.forces.regular hclear hresp₂ hresp₁ (fun u hu => ?_) w hw
        rw [hcont₂.free hr hl₁ u hu, hcont₁.free hr hl₁ u hu]
    have hready := ready_letScheme (v := v) hr hl₁ ha.forces ha.named x
    -- so the body has its type where the name is bound to the scheme instead
    have hbody : Has ((env.apply θ₁).insert x (letScheme (env.apply θ₁) v (θ₁.apply τ₁))) R₁ b T := by
      refine hb.weaken fun _ y σ hy => ?_
      rw [TypeEnv.instances_insert, hclear.instances_of_respects ha.forces.regular hresp₁,
        TypeEnv.instances_congr (hcont₁.free hr hl₁)]
      exact update_imp x (fun _ _ => id) hscheme y σ hy
    refine Succeeds.bind (fun _ => grows_pure _) hl' (hcb hready hbody) ?_
    rintro ⟨τ₂, θ₂⟩ s₂ hrun₂ ⟨R₂, hcont₂, hresp₂, heq₂⟩ hl₂ -
    have hab := hsb hready.toSupplied hrun₂ hl₂
    refine ⟨R₂, hcont₁.trans hcont₂ ha.forces.before hab.forces.before, ?_, heq₂⟩
    exact (hcont₂.respects hr hl₂ ha.forces hresp₁).compose ha.forces.regular hab.forces.regular
      hresp₂

end Binders

/-! ### The other forms -/

section Forms

variable {limit : Int} {fuel : Nat}

theorem fresh_complete {t : Term} {shape : Ty → Ty} (hshape : Shape shape)
    (rule : ∀ {env R T}, Has env R t T → ∃ T', T = shape T') :
    IsComplete limit t fun _ => do
      let v ← fresh
      return (shape v, ∅) := by
  intro env s R T hr ht hl
  obtain ⟨T', rfl⟩ := rule ht
  refine ⟨_, continues_fresh s R T', respects_empty _, ?_⟩
  rw [hshape.bind, Ty.bind, Function.update_self]

theorem constant_complete {t : Term} {τ : Ty} (hnil : τ.freeVars = [])
    (rule : ∀ {env R T}, Has env R t T → T = τ) : IsComplete limit t fun _ => pure (τ, ∅) := by
  intro env s R T hr ht hl
  obtain rfl := rule ht
  exact ⟨R, .refl s s R, respects_empty R, Ty.bind_eq_self (by simp [hnil])⟩

theorem app_complete {f a : Term} (hsf : IsSound limit f (infer fuel · f))
    (hsa : IsSound limit a (infer fuel · a)) (hcf : IsComplete limit f (infer fuel · f))
    (hca : IsComplete limit a (infer fuel · a)) :
    IsComplete limit (.app f a) (infer fuel · (.app f a)) := by
  intro env s R T hr ht hl
  obtain ⟨dom, htf, hta⟩ := ht.2 ()
  simp only [infer] at hl ⊢
  refine Succeeds.bind
    (fun _ => grows_fresh.bind fun _ => grows_unifyAt.bind fun _ => grows_pure _) hl
    (both_complete hsf hsa hcf hca (infer_grows fuel a) hr htf hta) ?_
  rintro ⟨⟨τ₁, θ₁⟩, ⟨τ₂, θ₂⟩⟩ s₂ hrun ⟨R₁, hcont, hresp, -, heq₁, heq₂⟩ hl₂ hl'
  obtain ⟨⟨-, hf⟩, ha⟩ := both_sound hsf hsa (infer_grows fuel a) hr.toSupplied hrun hl₂
  refine Succeeds.bind (P := fun v s' => v = .var s₂.fresh.1 ∧ s' = s₂.fresh.2)
    (fun _ => grows_unifyAt.bind fun _ => grows_pure _) hl' (fun _ => ⟨rfl, rfl⟩) ?_
  rintro _ _ - ⟨rfl, rfl⟩ hl₃ hl'
  have hs := NameSupply.before_fresh s₂
  have hnew := continues_fresh s₂ R₁ T
  have hv : Function.update R₁ s₂.fresh.1 T s₂.fresh.1 = T := Function.update_self ..
  have hresp' := hnew.respects hr hl₃ ha.forces hresp
  refine Succeeds.bind (fun _ => grows_pure _) hl' (fun _ => unifyAt_complete
    ha.forces.regular hf.named.1 (b := .arrow τ₂ (.var s₂.fresh.1)) ⟨ha.named.1, trivial⟩
    hresp' ?_) ?_
  · rw [hnew.bind_eq hr ha.forces.before hl₃ hf.named, heq₁, Ty.bind, Ty.bind, hv,
      hnew.bind_eq hr ha.forces.before hl₃ ha.named, heq₂]
  · rintro θ₃ s₄ hu ⟨rfl, hresp₃⟩ - -
    obtain ⟨-, hforces, -⟩ := forces_unifyAt (hf.forces.later hs) (hf.named.later hs)
      (named_arrow (ha.named.later hs) ha.forces.named_fresh) hu
    refine ⟨_, hcont.fresh ha.forces.before T, hresp₃, ?_⟩
    rw [hforces.regular.bind_apply_of_respects hresp₃ (t := .var _) trivial, Ty.bind, hv]

theorem cons_complete {a l : Term} (hsa : IsSound limit a (infer fuel · a))
    (hsl : IsSound limit l (infer fuel · l)) (hca : IsComplete limit a (infer fuel · a))
    (hcl : IsComplete limit l (infer fuel · l)) :
    IsComplete limit (.cons a l) (infer fuel · (.cons a l)) := by
  intro env s R T hr ht hl
  obtain ⟨elem, heq, hta, htl⟩ := ht
  have hta : Has env R a (elem ()) := hta
  have hT : T = .list (elem ()) := heq ()
  subst hT
  simp only [infer] at hl ⊢
  refine Succeeds.bind (fun _ => grows_unifyAt.bind fun _ => grows_pure _) hl
    (both_complete hsa hsl hca hcl (infer_grows fuel l) hr hta htl) ?_
  rintro ⟨⟨τ₁, θ₁⟩, ⟨τ₂, θ₂⟩⟩ s₂ hrun ⟨R₁, hcont, hresp, -, heq₁, heq₂⟩ hl₂ hl'
  obtain ⟨⟨-, ha⟩, hb⟩ := both_sound hsa hsl (infer_grows fuel l) hr.toSupplied hrun hl₂
  refine Succeeds.bind (fun _ => grows_pure _) hl' (fun _ => unifyAt_complete
    ha.forces.regular hb.named.1 (shape_list.mono ha.named.1) hresp ?_) ?_
  · exact heq₂.trans (congrArg Ty.list heq₁).symm
  · rintro θ₃ s₃ hu ⟨rfl, hresp₃⟩ - -
    obtain ⟨-, hforces, -⟩ := forces_unifyAt ha.forces hb.named (shape_list.named ha.named) hu
    refine ⟨R₁, hcont, hresp₃, ?_⟩
    rw [hforces.regular.bind_apply_of_respects hresp₃ (shape_list.mono ha.named.1)]
    exact congrArg Ty.list heq₁

theorem assign_complete {r v : Term} (hsr : IsSound limit r (infer fuel · r))
    (hsv : IsSound limit v (infer fuel · v)) (hcr : IsComplete limit r (infer fuel · r))
    (hcv : IsComplete limit v (infer fuel · v)) :
    IsComplete limit (.assign r v) (infer fuel · (.assign r v)) := by
  intro env s R T hr ht hl
  obtain ⟨heq, content, htr, htv⟩ := ht
  have htr : Has env R r (.ref (content ())) := htr
  have htv : Has env R v (content ()) := htv
  have hT : T = .unit := heq ()
  subst hT
  simp only [infer] at hl ⊢
  refine Succeeds.bind (fun _ => grows_unifyAt.bind fun _ => grows_pure _) hl
    (both_complete hsr hsv hcr hcv (infer_grows fuel v) hr htr htv) ?_
  rintro ⟨⟨τ₁, θ₁⟩, ⟨τ₂, θ₂⟩⟩ s₂ hrun ⟨R₁, hcont, hresp, -, heq₁, heq₂⟩ hl₂ hl'
  obtain ⟨⟨-, ha⟩, hb⟩ := both_sound hsr hsv (infer_grows fuel v) hr.toSupplied hrun hl₂
  refine Succeeds.bind (fun _ => grows_pure _) hl' (fun _ => unifyAt_complete
    ha.forces.regular ha.named.1 (shape_ref.mono hb.named.1) hresp ?_) ?_
  · exact heq₁.trans (congrArg Ty.ref heq₂).symm
  · rintro θ₃ s₃ - ⟨rfl, hresp₃⟩ - -
    exact ⟨R₁, hcont, hresp₃, rfl⟩

theorem ifZero_complete {c t e : Term} (hsc : IsSound limit c (infer fuel · c))
    (hst : IsSound limit t (infer fuel · t)) (hse : IsSound limit e (infer fuel · e))
    (hcc : IsComplete limit c (infer fuel · c)) (hct : IsComplete limit t (infer fuel · t))
    (hce : IsComplete limit e (infer fuel · e)) :
    IsComplete limit (.ifZero c t e) (infer fuel · (.ifZero c t e)) := by
  intro env s R T hr ht hl
  obtain ⟨htc, htt, hte⟩ := ht
  have hgt := infer_grows fuel t
  have hge := infer_grows fuel e
  simp only [infer] at hl ⊢
  refine Succeeds.bind (fun _ => grows_unifyAt.bind fun _ => grows_branches hgt hge _ _ _ _) hl
    (hcc hr htc) ?_
  rintro ⟨τ₁, θ₁⟩ s₁ hrun ⟨R₁, hcont, hresp, heq⟩ hl₁ hl'
  have ha := hsc hr.toSupplied hrun hl₁
  refine Succeeds.bind (fun _ => grows_branches hgt hge _ _ _ _) hl'
    (fun _ => unifyAt_complete ha.forces.regular ha.named.1 (b := .int) trivial hresp heq) ?_
  rintro θ₂ s₂ hu ⟨rfl, hresp₂⟩ - hl'
  obtain ⟨-, hf, -⟩ := forces_unifyAt ha.forces ha.named (b := .int) ⟨trivial, by simp⟩ hu
  exact branches_complete hst hse hct hce hgt hge hr hf hcont hresp₂ htt hte hl'

theorem ifEmpty_complete {c t e : Term} (hsc : IsSound limit c (infer fuel · c))
    (hst : IsSound limit t (infer fuel · t)) (hse : IsSound limit e (infer fuel · e))
    (hcc : IsComplete limit c (infer fuel · c)) (hct : IsComplete limit t (infer fuel · t))
    (hce : IsComplete limit e (infer fuel · e)) :
    IsComplete limit (.ifEmpty c t e) (infer fuel · (.ifEmpty c t e)) := by
  intro env s R T hr ht hl
  obtain ⟨⟨elem, htc⟩, htt, hte⟩ := ht
  have htc : Has env R c (.list (elem ())) := htc
  have hgt := infer_grows fuel t
  have hge := infer_grows fuel e
  simp only [infer] at hl ⊢
  refine Succeeds.bind (fun _ => grows_fresh.bind fun _ => grows_unifyAt.bind fun _ =>
    grows_branches hgt hge _ _ _ _) hl (hcc hr htc) ?_
  rintro ⟨τ₁, θ₁⟩ s₁ hrun ⟨R₁, hcont, hresp, heq⟩ hl₁ hl'
  have ha := hsc hr.toSupplied hrun hl₁
  refine Succeeds.bind (P := fun v s' => v = .var s₁.fresh.1 ∧ s' = s₁.fresh.2)
    (fun _ => grows_unifyAt.bind fun _ => grows_branches hgt hge _ _ _ _) hl'
    (fun _ => ⟨rfl, rfl⟩) ?_
  rintro _ _ - ⟨rfl, rfl⟩ hl₂ hl'
  have hs := NameSupply.before_fresh s₁
  have hnew := continues_fresh s₁ R₁ (elem ())
  have hresp' := hnew.respects hr hl₂ ha.forces hresp
  refine Succeeds.bind (fun _ => grows_branches hgt hge _ _ _ _) hl' (fun _ => unifyAt_complete
    ha.forces.regular ha.named.1 (shape_list.mono (τ := .var _) trivial) hresp' ?_) ?_
  · rw [hnew.bind_eq hr ha.forces.before hl₂ ha.named, heq, Ty.bind, Ty.bind, Function.update_self]
  · rintro θ₂ s₂ hu ⟨rfl, hresp₂⟩ - hl'
    obtain ⟨-, hf, -⟩ := forces_unifyAt (ha.forces.later hs) (ha.named.later hs)
      (shape_list.named ha.forces.named_fresh) hu
    exact branches_complete hst hse hct hce hgt hge hr hf (hcont.fresh ha.forces.before _) hresp₂
      htt hte hl'

theorem mkRef_complete {e : Term} (hc : IsComplete limit e (infer fuel · e)) :
    IsComplete limit (.mkRef e) (infer fuel · (.mkRef e)) := by
  intro env s R T hr ht hl
  obtain ⟨-, content, heq, hte⟩ := ht
  have hte : Has env R e (content ()) := hte
  have hT : T = .ref (content ()) := heq ()
  subst hT
  simp only [infer] at hl ⊢
  refine Succeeds.bind (fun _ => grows_pure _) hl (hc hr hte) ?_
  rintro ⟨τ, θ⟩ s₁ - ⟨R₁, hcont, hresp, heq⟩ - -
  exact ⟨R₁, hcont, hresp, congrArg Ty.ref heq⟩

end Forms

/-- **Inference is complete**, by induction on the term. -/
theorem infer_complete (fuel : Nat) (limit : Int) (t : Term) :
    IsComplete limit t (infer fuel · t) := by
  have hs := infer_sound fuel limit
  induction t with
  | var x => exact var_complete x
  | int n => exact constant_complete (τ := .int) rfl fun h => h ()
  | unit => exact constant_complete (τ := .unit) rfl fun h => h ()
  | nil => exact fresh_complete shape_list fun h => ⟨_, (h ()).choose_spec.1⟩
  | region i => exact fresh_complete shape_ref fun h => ⟨_, (h ()).choose_spec.1⟩
  | abs x b ih => exact abs_complete (hs b) ih
  | app f a ihf iha => exact app_complete (hs f) (hs a) ihf iha
  | letIn x v b ihv ihb => exact letIn_complete (hs v) (hs b) ihv ihb
  | add l r ihl ihr =>
    exact arith_complete (hs l) (hs r) ihl ihr (infer_grows fuel r) fun h => ⟨h.1 (), h.2⟩
  | sub l r ihl ihr =>
    exact arith_complete (hs l) (hs r) ihl ihr (infer_grows fuel r) fun h => ⟨h.1 (), h.2⟩
  | cons a l iha ihl => exact cons_complete (hs a) (hs l) iha ihl
  | head l ih => exact eliminate_complete (hs l) ih shape_list shape_id fun h => ⟨_, rfl, h⟩
  | tail l ih =>
    refine eliminate_complete (hs l) ih shape_list shape_list fun h => ?_
    obtain ⟨⟨elem, heq⟩, h⟩ := h
    exact ⟨elem (), heq (), heq () ▸ h⟩
  | fix f ih => exact eliminate_complete (hs f) ih shape_endo shape_id fun h => ⟨_, rfl, h⟩
  | deref e ih => exact eliminate_complete (hs e) ih shape_ref shape_id fun h => ⟨_, rfl, h⟩
  | ifZero c t e ihc iht ihe => exact ifZero_complete (hs c) (hs t) (hs e) ihc iht ihe
  | ifEmpty c t e ihc iht ihe => exact ifEmpty_complete (hs c) (hs t) (hs e) ihc iht ihe
  | mkRef e ih => exact mkRef_complete ih
  | assign r v ihr ihv => exact assign_complete (hs r) (hs v) ihr ihv

end MiniML.Infer

namespace MiniML

open Subst

/-- `env'` is an instance of `env`, whose free type variables stand for what `R` gives
    them, extended with monotypes for free variables of `t`: a variable of `env` is
    used in `env'` at instances of its scheme only. -/
structure TypeEnv.InstanceOf (env' env : TypeEnv) (t : Term) (R : String → Ty) : Prop where
  mono : ∀ v ∈ env.freeTypeVars, (R v).Mono
  bound : ∀ {x : String} {σ σ' τ : Ty}, env[x]? = some σ → env'[x]? = some σ' →
    σ'.HasInstance .var τ → σ.HasInstance R τ
  other : ∀ {x : String} {σ' : Ty}, env[x]? = none → env'[x]? = some σ' →
    x ∈ t.freeVars ∧ σ'.Mono

/-- The seeds of the free variables may stand for the types that an instance of the
    environment gives them. -/
theorem TypeEnv.InstanceOf.exists_seeded {env env' : TypeEnv} {t : Term} {R : String → Ty}
    (h : env'.InstanceOf env t R) {s : NameSupply} {limit : Int} (hr : env.Ready s limit)
    (hl : (Infer.seeds t.freeVars.toList s).2.count ≤ limit) :
    ∃ R₀ : String → Ty, (∀ v ∈ env.freeTypeVars, R₀ v = R v) ∧ ∀ {x : String} {τ : Ty},
      env'.instances .var x τ →
        ((Infer.seeds t.freeVars.toList s).1.merge env).instances R₀ x τ := by
  obtain ⟨number, hrange, hinj, hget⟩ := Infer.seeds_eq t.freeVars.toList s
  have hstart := hr.start
  have hbound := hr.bound
  classical
  -- the seed of `x` stands for what the instance binds `x` to
  let R₀ (v : String) : Ty :=
    if h : ∃ x ∈ t.freeVars.toList, s.nameAt (number x) = v then (env'[h.choose]?).getD .int
    else R v
  have hseed : ∀ x ∈ t.freeVars.toList, R₀ (s.nameAt (number x)) = (env'[x]?).getD .int := by
    intro x hx
    have h : ∃ y ∈ t.freeVars.toList, s.nameAt (number y) = s.nameAt (number x) := ⟨x, hx, rfl⟩
    have hy := h.choose_spec
    have hrx := hrange x hx
    have hry := hrange _ hy.1
    have hnum := NameSupply.nameAt_inj (by omega) (by omega) (by omega) (by omega) hy.2
    refine (dif_pos h).trans ?_
    rw [hinj _ hy.1 x hx hnum]
  have hfree : ∀ v ∈ env.freeTypeVars, R₀ v = R v := by
    intro v hv
    refine dif_neg ?_
    rintro ⟨x, hx, rfl⟩
    exact (hr.free _ hv).not_issued hl ⟨number x, (hrange x hx).1, (hrange x hx).2, rfl⟩
  refine ⟨R₀, hfree, ?_⟩
  rintro x τ ⟨σ', hσ', hi⟩
  cases hx : env[x]? with
  | some σ =>
    refine ⟨σ, by rw [getElem?_merge, hx]; rfl, (h.bound hx hσ' hi).congr fun v hv => ?_⟩
    exact (hfree v (freeVars_subset hx v hv)).symm
  | none =>
    obtain ⟨hmem, hmono⟩ := h.other hx hσ'
    have hmem := Std.ExtTreeSet.mem_toList.mpr hmem
    refine ⟨.var (s.nameAt (number x)), ?_, ?_⟩
    · rw [getElem?_merge, hx, hget x, if_pos hmem]
      rfl
    · rw [Ty.hasInstance_iff_of_mono (σ := .var _) trivial, Ty.bind, hseed x hmem, hσ',
        Option.getD_some, ← Ty.bind_var σ']
      exact (Ty.hasInstance_iff_of_mono hmono).mp hi

open Classical in
/-- What a monotype is made of by some replacement, it is made of by one that puts
    monotypes in. -/
theorem Ty.bind_mono_part {R : String → Ty} {t T : Ty} (ht : t.Mono) (hT : T.Mono)
    (h : t.bind R = T) : t.bind (fun v => if (R v).Mono then R v else .var v) = T := by
  rw [← h] at hT ⊢
  exact Ty.bind_congr fun v hv => if_pos ((mono_bind_iff ht).mp hT v hv)

/-- A typing, when the term has a type in an instance of the environment. -/
theorem Infer.typing_complete {fuel : Nat} {env env' : TypeEnv} {t : Term} {R : String → Ty}
    {T : Ty} {s : NameSupply} {limit : Int} (hr : env.Ready s limit)
    (hinst : env'.InstanceOf env t R) (ht : HasType env' t T)
    (hl : (typing fuel env t s).2.count ≤ limit) :
    Succeeds (fun r _ => ∃ R' : String → Ty, (∀ v, (R' v).Mono) ∧ r.type.bind R' = T ∧
      ∀ v ∈ env.freeTypeVars, (r.subst.apply (.var v)).bind R' = R v) (typing fuel env t s) := by
  -- what holds of a run of inference with the seeds
  have hcomplete : ∀ {r s'}, infer fuel ((seeds t.freeVars.toList s).1.merge env) t
      (seeds t.freeVars.toList s).2 = (r, s') → s'.count ≤ limit →
      ∃ R₀ : String → Ty, (∀ v ∈ env.freeTypeVars, R₀ v = R v) ∧
        Succeeds (Finds (seeds t.freeVars.toList s).2 R₀ T) (r, s') := by
    intro r s' hrun hl
    have hl₀ := Int.le_trans (before_of_infer hrun).count hl
    obtain ⟨R₀, hfree, hcov⟩ := hinst.exists_seeded hr hl₀
    have hhas := ht.uniform (Ψ := fun _ c => c.Mono) (Term.allRegions_iff.mpr fun _ _ _ => id)
      (ι := Unit) (θ := fun _ => .var) (fun _ _ => trivial) (fun _ _ _ => rfl)
      (Γ := fun _ => ((seeds t.freeVars.toList s).1.merge env).instances R₀) fun _ _ _ hx => hcov hx
    simp only [Ty.bind_var] at hhas
    have hcount : (infer fuel ((seeds t.freeVars.toList s).1.merge env) t
        (seeds t.freeVars.toList s).2).2.count ≤ limit := by rwa [hrun]
    exact ⟨R₀, hfree, hrun ▸ infer_complete fuel limit t (ready_seeds hr _ hl₀) hhas hcount⟩
  rcases hrun : typing fuel env t s with ⟨e | r, s'⟩
  · rw [hrun] at hl
    exact (hcomplete (run_typing_error hrun) hl).choose_spec.2
  · rw [hrun] at hl
    obtain ⟨τ, hinfer, htype, -⟩ := run_typing_ok hrun
    obtain ⟨R₀, hfree, R₂, hcont, hresp, heq⟩ := hcomplete hinfer hl
    have hready := ready_seeds hr t.freeVars.toList
      (Int.le_trans (before_of_infer hinfer).count hl)
    have ha := infer_sound fuel limit t hready.toSupplied hinfer hl
    have hregular := ha.forces.regular
    -- names that do not occur may stand for anything, so they stand for themselves
    classical
    refine ⟨fun v => if (R₂ v).Mono then R₂ v else .var v, fun v => ?_, ?_, fun v hv => ?_⟩
    · change Ty.Mono (if (R₂ v).Mono then R₂ v else .var v)
      split
      · assumption
      · exact trivial
    · rw [htype]
      refine Ty.bind_mono_part (hregular.mono_apply ha.named.1) ht.mono ?_
      rw [hregular.bind_apply_of_respects hresp ha.named.1, heq]
    · have hmem : v ∈ ((seeds t.freeVars.toList s).1.merge env).freeTypeVars := by
        obtain ⟨x, σ, hx, hv⟩ := TypeEnv.mem_freeTypeVars.mp hv
        refine TypeEnv.mem_freeTypeVars.mpr ⟨x, σ, ?_, hv⟩
        rw [TypeEnv.getElem?_merge, hx]
        rfl
      refine Ty.bind_mono_part (hregular.mono_apply (t := .var v) trivial) (hinst.mono v hv) ?_
      rw [hregular.bind_apply_of_respects hresp (t := .var v) trivial]
      exact (hcont.free hready hl v hmem).trans (hfree v hv)

/-- **Principal types.**  If a term has a type in some instance of a hygienic
    environment, then inference can only fail because a unification budget was
    spent; and if it does not fail, the type is an instance of the inferred type, by
    a replacement that after the inferred substitution agrees with the given instance
    on the environment.  The numbers of the type variables must not overflow their
    64-bit words. -/
theorem inferType_principal {fuel : Nat} {env env' : TypeEnv} {t : Term} {R : String → Ty}
    {T : Ty} (henv : env.Hygienic) (hinst : env'.InstanceOf env t R)
    (hdrawn : Infer.drawn fuel env t ≤ 2 ^ 63) (ht : HasType env' t T) :
    match inferType fuel env t with
    | .ok r => ∃ R' : String → Ty, (∀ v, (R' v).Mono) ∧ r.type.bind R' = T ∧
        ∀ v ∈ env.freeTypeVars, (r.subst.apply (.var v)).bind R' = R v
    | .error e => e.fault = .unify .timeout := by
  have h := Infer.typing_complete (henv.ready (Int.le_refl _)) hinst ht hdrawn
  have hrun : Infer.typing fuel env t (.forTypes "" 0) =
      (inferType fuel env t, (Infer.typing fuel env t (.forTypes "" 0)).2) := rfl
  rw [hrun] at h
  cases hr : inferType fuel env t with
  | ok r => rwa [hr] at h
  | error e => rwa [hr] at h

/-- `f z`, where `f` makes lists of an unknown type of whatever it is applied to and
    `z` is not bound: with integers for the unknown type and a unit `z` it is a list
    of integers, and so the inferred type can be made one. -/
theorem inferType_principal_app :
    let env : TypeEnv := (∅ : TypeEnv).insert "f" (.all "a" (.arrow (.var "a") (.list (.var "b"))))
    let t : Term := .app (.var "f") (.var "z")
    ∃ (r : Typing) (R' : String → Ty), inferType 100 env t = .ok r ∧
      r.type.bind R' = .list .int ∧ (r.subst.apply (.var "b")).bind R' = .int := by
  intro env t
  let env' : TypeEnv := ((∅ : TypeEnv).insert "f"
    (.all "a" (.arrow (.var "a") (.list .int)))).insert "z" .unit
  have hf : ∀ {x : String} {σ : Ty}, env[x]? = some σ →
      x = "f" ∧ σ = .all "a" (.arrow (.var "a") (.list (.var "b"))) := by
    intro x σ hx
    rcases TypeEnv.getElem?_insert_some hx with hx | ⟨-, hx⟩
    · exact hx
    · exact absurd hx (by simp)
  have henv : env.Hygienic := by
    refine ⟨fun hx => ?_, fun hx v hv => ne_numbered ?_, fun hx hy v hv => ?_⟩
    · obtain ⟨-, rfl⟩ := hf hx
      simp [Ty.Prenex, Ty.splitAll, Ty.Mono]
    · obtain ⟨-, rfl⟩ := hf hx
      simp only [Ty.freeVars, Ty.splitAll] at hv
      rcases hv with hv | hv <;> simp at hv <;> subst hv <;> decide
    · obtain ⟨-, rfl⟩ := hf hx
      obtain ⟨-, rfl⟩ := hf hy
      simp_all [Ty.freeVars, Ty.splitAll]
  have hf' : env'["f"]? = some (.all "a" (.arrow (.var "a") (.list .int))) := by
    rw [Std.ExtTreeMap.getElem?_insert, if_neg (by decide), Std.ExtTreeMap.getElem?_insert_self]
  have hz' : env'["z"]? = some .unit := Std.ExtTreeMap.getElem?_insert_self
  have hinst : env'.InstanceOf env t fun _ => .int := by
    refine ⟨fun _ _ => trivial, fun {x σ σ' τ} hx hx' hi => ?_, fun {x σ'} hx hx' => ?_⟩
    · obtain ⟨rfl, rfl⟩ := hf hx
      obtain rfl := Option.some.inj (hf'.symm.trans hx')
      obtain ⟨hτ, χ, -, rfl⟩ := hi
      refine ⟨hτ, fun v => if v = "b" then .int else χ v, fun v hv => ?_, ?_⟩
      · simp_all [Ty.freeVars]
      · simp [Ty.splitAll, Ty.bind]
    · rcases TypeEnv.getElem?_insert_some hx' with ⟨rfl, rfl⟩ | ⟨-, hx'⟩
      · exact ⟨by simp [t, Term.freeVars], trivial⟩
      · rcases TypeEnv.getElem?_insert_some hx' with ⟨rfl, rfl⟩ | ⟨-, hx'⟩
        · exact absurd hx (by simp [env])
        · exact absurd hx' (by simp)
  have ht : HasType env' t (.list .int) := by
    have hinst : (Ty.all "a" (.arrow (.var "a") (.list .int))).HasInstance .var
        (.arrow .unit (.list .int)) :=
      ⟨⟨trivial, trivial⟩, fun _ => .unit, by simp [Ty.freeVars], rfl⟩
    exact .app (.var hf' hinst) (.var hz' ((Ty.hasInstance_iff_of_mono (σ := .unit) trivial).mpr ⟨trivial, rfl⟩))
  have hrun : (fun p : Except TypeError Typing × NameSupply => (p.1.isOk, p.2.count))
      ((Infer.typing 100 env t).run (.forTypes "" 0)) = (true, 4) := by cbv
  have hdrawn : Infer.drawn 100 env t ≤ 2 ^ 63 := by
    have : Infer.drawn 100 env t = 4 := congrArg Prod.snd hrun
    omega
  have h := inferType_principal henv hinst hdrawn ht
  cases hr : inferType 100 env t with
  | error e =>
    have hok : (inferType 100 env t).isOk = true := congrArg Prod.fst hrun
    rw [hr] at hok
    exact absurd hok (by simp [Except.isOk, Except.toBool])
  | ok r =>
    rw [hr] at h
    obtain ⟨R', -, htype, hfree⟩ := h
    refine ⟨r, R', rfl, htype, hfree "b" ?_⟩
    exact TypeEnv.mem_freeTypeVars.mpr ⟨"f", _, by simp [env]; rfl, by simp [Ty.freeVars]⟩

end MiniML
