/-
  MiniML/Proofs/Typing/Invariance.lean
  ====================================
  **Inference does not see the names of binders** — alpha-equal terms have the same
  typing, or they have the same fault.

  The two runs issue the same names but do not work in the same environment: a binder
  hides the entry of its name, and the binders have different names.  What the hidden
  entries have free decides what a `let` generalises.  It decides nothing, since a
  variable that is free in the type of the value is known to both runs, and a known
  variable that is free in one environment was not issued, so it is free in the other
  (`Matches.mem_freeTypeVars_apply`).
-/
import MiniML.Proofs.Term.Canonical
import MiniML.Proofs.Typing.Soundness

namespace MiniML

theorem Term.Alike.isExpansive_eq {Γ Δ : List String} {a b : Term} (h : Alike Γ Δ a b) :
    a.isExpansive = b.isExpansive := by
  induction h with
  | var | abs | app | int | nil | unit | mkRef | region => rfl
  | head _ ih | tail _ ih | fix _ ih | deref _ ih => exact ih
  | letIn _ _ ih ih' | cons _ _ ih ih' | add _ _ ih ih' | sub _ _ ih ih' | assign _ _ ih ih' =>
    simp only [isExpansive, ih, ih']
  | ifZero _ _ _ ih ih' ih'' | ifEmpty _ _ _ ih ih' ih'' => simp only [isExpansive, ih, ih', ih'']

namespace Infer

variable {α β : Type} {limit : Int} {s s₁ : NameSupply} {fuel : Nat}

/-! ### Two runs from one supply -/

/-- The result of a run without the place of a failure, and the supply that is left. -/
def outcome (r : Except TypeError α × NameSupply) : Except TypeFault α × NameSupply :=
  (r.1.mapError TypeError.fault, r.2)

/-- The runs have the same outcome, unless the first one passes the limit. -/
def Same (limit : Int) (s : NameSupply) (m m' : InferM α) : Prop :=
  (m s).2.count ≤ limit → outcome (m s) = outcome (m' s)

theorem eq_of_outcome_eq_ok {r : Except TypeError α × NameSupply} {a : α}
    (h : outcome (.ok a, s) = outcome r) : r = (.ok a, s) := by
  obtain ⟨e | b, s'⟩ := r
  · exact absurd (congrArg Prod.fst h) (by simp [outcome, Except.mapError])
  · simp only [outcome, Except.mapError, Prod.mk.injEq, Except.ok.injEq] at h
    rw [h.1, h.2]

theorem exists_of_outcome_eq_error {r : Except TypeError α × NameSupply} {e : TypeError}
    (h : outcome (.error e, s) = outcome r) : ∃ e', r = (.error e', s) ∧ e.fault = e'.fault := by
  obtain ⟨e' | b, s'⟩ := r
  · simp only [outcome, Except.mapError, Prod.mk.injEq, Except.error.injEq] at h
    exact ⟨e', by rw [h.2], h.1⟩
  · exact absurd (congrArg Prod.fst h) (by simp [outcome, Except.mapError])

theorem Same.refl (m : InferM α) : Same limit s m m := fun _ => rfl

/-- Runs stay the same when what follows them is the same. -/
theorem Same.bind {m m' : InferM α} {f f' : α → InferM β} (hm : Same limit s m m')
    (hgrows : ∀ a, Grows (f a))
    (hf : ∀ a s₁, m s = (.ok a, s₁) → m' s = (.ok a, s₁) → s₁.count ≤ limit →
      Same limit s₁ (f a) (f' a)) : Same limit s (m >>= f) (m' >>= f') := by
  intro hl
  unfold Same at hm
  rw [run_bind] at hl ⊢
  rw [run_bind]
  rcases hrun : m s with ⟨e | a, s₁⟩
  · rw [hrun] at hl hm
    obtain ⟨e', hrun', hfault⟩ := exists_of_outcome_eq_error (hm hl)
    rw [hrun']
    simp only [outcome, Except.mapError, hfault]
  · rw [hrun] at hl hm
    have hl₁ : s₁.count ≤ limit := Int.le_trans (hgrows a s₁).count hl
    have hrun' := eq_of_outcome_eq_ok (hm hl₁)
    rw [hrun']
    exact hf a s₁ hrun hrun' hl₁ hl

theorem Same.last {m m' : InferM α} {f : α → InferM β} (hm : Same limit s m m')
    (hgrows : ∀ a, Grows (f a)) : Same limit s (m >>= f) (m' >>= f) :=
  hm.bind hgrows fun a _ _ _ _ => .refl (f a)

theorem same_unifyAt {t t' : Term} {a b : Ty} {θ : Subst} :
    Same limit s (unifyAt fuel t a b θ) (unifyAt fuel t' a b θ) := by
  intro _
  rw [run_unifyAt, run_unifyAt]
  cases unify fuel a b θ <;> rfl

/-! ### Two environments -/

/-- The entry of a name, or the fault that there is none. -/
def entry (env : TypeEnv) (x : String) : Except TypeFault Ty :=
  match env[x]? with
  | some σ => .ok σ
  | none => .error (.unbound x)

theorem entry_insert (env : TypeEnv) (x : String) (σ : Ty) :
    entry (env.insert x σ) = Function.update (entry env) x (.ok σ) := by
  funext y
  by_cases hyx : y = x
  · subst hyx
    rw [Function.update_self, entry, Std.ExtTreeMap.getElem?_insert_self]
  · rw [Function.update_of_ne hyx, entry, entry, Std.ExtTreeMap.getElem?_insert]
    simp [Ne.symm hyx]

theorem entry_apply (env : TypeEnv) (θ : Subst) :
    entry (env.apply θ) = fun x => (entry env x).map θ.apply := by
  funext x
  rw [entry, entry, TypeEnv.getElem?_apply]
  cases env[x]? <;> rfl

theorem same_lookup {env env' : TypeEnv} {x y : String} (h : entry env x = entry env' y) :
    Same limit s (lookup env x) (lookup env' y) := by
  intro _
  unfold entry at h
  rw [lookup, lookup]
  cases hx : env[x]? with
  | some σ =>
    cases hy : env'[y]? with
    | some ρ =>
      rw [hx, hy] at h
      rw [Except.ok.inj h]
    | none =>
      rw [hx, hy] at h
      cases h
  | none =>
    cases hy : env'[y]? with
    | some ρ =>
      rw [hx, hy] at h
      cases h
    | none =>
      rw [hx, hy] at h
      cases h
      rfl

/-- The environments are ready for a run from `s`, and they agree on names that point to
    the same place. -/
structure Matches (limit : Int) (s : NameSupply) (Γ Δ : List String) (env env' : TypeEnv) :
    Prop where
  left : env.Ready s limit
  right : env'.Ready s limit
  entries : Corresponds Γ Δ (entry env) (entry env')

section Matches

variable {Γ Δ : List String} {env env' : TypeEnv} {θ : Subst}

theorem Matches.symm (h : Matches limit s Γ Δ env env') : Matches limit s Δ Γ env' env :=
  ⟨h.right, h.left, fun y x hxy => (h.entries x y hxy.symm).symm⟩

theorem Matches.apply (h : Matches limit s Γ Δ env env') (hθ : Forces env s θ s₁)
    (hθ' : Forces env' s θ s₁) (hl : s₁.count ≤ limit) :
    Matches limit s₁ Γ Δ (env.apply θ) (env'.apply θ) := by
  refine ⟨hθ.ready h.left hl, hθ'.ready h.right hl, ?_⟩
  rw [entry_apply, entry_apply]
  exact h.entries.map _

theorem Matches.insert_fresh (h : Matches limit s Γ Δ env env') (hl : s.fresh.2.count ≤ limit)
    (x y : String) : Matches limit s.fresh.2 (x :: Γ) (y :: Δ) (env.insert x (.var s.fresh.1))
      (env'.insert y (.var s.fresh.1)) := by
  refine ⟨h.left.insert_fresh hl x, h.right.insert_fresh hl y, ?_⟩
  rw [entry_insert, entry_insert]
  exact h.entries.cons x y _

theorem Matches.answers (h : Matches limit s Γ Δ env env') {a b : Term} {r : Ty × Subst}
    (ha : infer fuel env a s = (.ok r, s₁)) (hb : infer fuel env' b s = (.ok r, s₁))
    (hl : s₁.count ≤ limit) :
    Answer limit env s a r.1 r.2 s₁ ∧ Answer limit env' s b r.1 r.2 s₁ :=
  ⟨infer_sound fuel limit a h.left.toSupplied ha hl,
    infer_sound fuel limit b h.right.toSupplied hb hl⟩

/-- What is free in one environment and known in the other was not issued. -/
theorem Matches.mem_freeTypeVars (h : Matches limit s Γ Δ env env') (hl : s₁.count ≤ limit)
    {v : String} (hv : v ∈ env.freeTypeVars) (hknown : Known env' s s₁ v) :
    v ∈ env'.freeTypeVars :=
  hknown.resolve_right ((h.left.free v hv).not_issued hl)

theorem Matches.mem_freeTypeVars_apply (h : Matches limit s Γ Δ env env')
    (hθ : Forces env s θ s₁) (hθ' : Forces env' s θ s₁) (hl : s₁.count ≤ limit) {u : String}
    (hu : u ∈ (env.apply θ).freeTypeVars) (hknown : Known env' s s₁ u) :
    u ∈ (env'.apply θ).freeTypeVars := by
  obtain ⟨v, hv, hmem⟩ := (hθ.cleared h.left hl).mem_freeTypeVars_apply.mp hu
  refine (hθ'.cleared h.right hl).mem_freeTypeVars_apply.mpr ⟨v, ?_, hmem⟩
  refine h.mem_freeTypeVars hl hv ?_
  cases hbound : θ[v]? with
  | some t => exact (hθ'.within hbound).1
  | none =>
    rw [Subst.resolve_of_unbound hbound, Ty.mem_freeVars_var] at hmem
    exact hmem ▸ hknown

theorem Matches.letScheme_eq (h : Matches limit s Γ Δ env env') {v v' : Term} {τ : Ty}
    (hv : Answer limit env s v τ θ s₁) (hv' : Answer limit env' s v' τ θ s₁)
    (hexp : v.isExpansive = v'.isExpansive) (hl : s₁.count ≤ limit) :
    letScheme (env.apply θ) v (θ.apply τ) = letScheme (env'.apply θ) v' (θ.apply τ) := by
  have hiff : ∀ u ∈ (θ.apply τ).freeVars,
      (u ∈ (env.apply θ).freeTypeVars ↔ u ∈ (env'.apply θ).freeTypeVars) := by
    intro u hu
    constructor
    · intro hmem
      exact h.mem_freeTypeVars_apply hv.forces hv'.forces hl hmem (hv'.apply.named.2 u hu)
    · intro hmem
      exact h.symm.mem_freeTypeVars_apply hv'.forces hv.forces hl hmem (hv.apply.named.2 u hu)
  have hfilter : (θ.apply τ).freeVars.filter (fun u => !(env.apply θ).freeTypeVars.contains u) =
      (θ.apply τ).freeVars.filter fun u => !(env'.apply θ).freeTypeVars.contains u := by
    refine List.filter_congr fun u hu => congrArg Bool.not (Bool.eq_iff_iff.mpr ?_)
    rw [← Std.ExtTreeSet.mem_iff_contains, ← Std.ExtTreeSet.mem_iff_contains]
    exact hiff u hu
  rw [letScheme, letScheme, hexp, Ty.generalize, Ty.generalize, hfilter]

theorem Matches.letIn (h : Matches limit s Γ Δ env env') {v v' : Term} {τ : Ty}
    (hv : Answer limit env s v τ θ s₁) (hv' : Answer limit env' s v' τ θ s₁)
    (hexp : v.isExpansive = v'.isExpansive) (hl : s₁.count ≤ limit) (x y : String) :
    Matches limit s₁ (x :: Γ) (y :: Δ)
      ((env.apply θ).insert x (letScheme (env.apply θ) v (θ.apply τ)))
      ((env'.apply θ).insert y (letScheme (env'.apply θ) v' (θ.apply τ))) := by
  refine ⟨ready_letScheme h.left hl hv.forces hv.named x,
    ready_letScheme h.right hl hv'.forces hv'.named y, ?_⟩
  rw [h.letScheme_eq hv hv' hexp hl, entry_insert, entry_insert]
  exact (h.apply hv.forces hv'.forces hl).entries.cons x y _

end Matches

/-! ### The forms of a term -/

/-- The computations have the same outcome in environments that match. -/
def Congruent (limit : Int) (Γ Δ : List String) (p p' : TypeEnv → InferM α) : Prop :=
  ∀ ⦃env env' : TypeEnv⦄ ⦃s : NameSupply⦄, Matches limit s Γ Δ env env' →
    Same limit s (p env) (p' env')

section Forms

variable {Γ Δ : List String} {a a' b b' c c' : Term}

theorem congruent_both (ha : Congruent limit Γ Δ (infer fuel · a) (infer fuel · a'))
    (hb : Congruent limit Γ Δ (infer fuel · b) (infer fuel · b')) :
    Congruent limit Γ Δ (both · (infer fuel · a) (infer fuel · b))
      (both · (infer fuel · a') (infer fuel · b')) := by
  intro env env' s h
  refine (ha h).bind (fun _ => (infer_grows fuel b _).bind fun _ => grows_pure _) ?_
  intro l s₁ hrun hrun' hl
  obtain ⟨hans, hans'⟩ := h.answers hrun hrun' hl
  exact (hb (h.apply hans.forces hans'.forces hl)).last fun _ => grows_pure _

theorem congruent_arith {whole whole' : Term}
    (ha : Congruent limit Γ Δ (infer fuel · a) (infer fuel · a'))
    (hb : Congruent limit Γ Δ (infer fuel · b) (infer fuel · b')) :
    Congruent limit Γ Δ (arith fuel whole · (infer fuel · a) (infer fuel · b))
      (arith fuel whole' · (infer fuel · a') (infer fuel · b')) := by
  intro env env' s h
  refine (congruent_both ha hb h).bind
    (fun _ => grows_unifyAt.bind fun _ => grows_unifyAt.bind fun _ => grows_pure _) ?_
  intro _ _ _ _ _
  refine same_unifyAt.bind (fun _ => grows_unifyAt.bind fun _ => grows_pure _) ?_
  intro _ _ _ _ _
  exact same_unifyAt.last fun _ => grows_pure _

theorem congruent_eliminate {whole whole' : Term} (shape result : Ty → Ty)
    (ha : Congruent limit Γ Δ (infer fuel · a) (infer fuel · a')) :
    Congruent limit Γ Δ (eliminate fuel whole · (infer fuel · a) shape result)
      (eliminate fuel whole' · (infer fuel · a') shape result) := by
  intro env env' s h
  refine (ha h).bind
    (fun _ => grows_fresh.bind fun _ => grows_unifyAt.bind fun _ => grows_pure _) ?_
  intro _ _ _ _ _
  refine (Same.refl fresh).bind (fun _ => grows_unifyAt.bind fun _ => grows_pure _) ?_
  intro _ _ _ _ _
  exact same_unifyAt.last fun _ => grows_pure _

/-- The branches of conditionals whose conditions forced the same. -/
theorem same_branches {whole whole' : Term} {env env' : TypeEnv} {θ : Subst}
    (ha : Congruent limit Γ Δ (infer fuel · a) (infer fuel · a'))
    (hb : Congruent limit Γ Δ (infer fuel · b) (infer fuel · b'))
    (h : Matches limit s Γ Δ env env') (hθ : Forces env s θ s₁) (hθ' : Forces env' s θ s₁)
    (hl : s₁.count ≤ limit) :
    Same limit s₁ (branches fuel whole env θ (infer fuel · a) (infer fuel · b))
      (branches fuel whole' env' θ (infer fuel · a') (infer fuel · b')) := by
  have happly := h.apply hθ hθ' hl
  refine (ha happly).bind
    (fun _ => (infer_grows fuel b _).bind fun _ => grows_unifyAt.bind fun _ => grows_pure _) ?_
  intro l s₂ hrun hrun' hl₂
  obtain ⟨hans, hans'⟩ := happly.answers hrun hrun' hl₂
  have hnext := hans.next hθ h.left.toSupplied hl₂
  have hnext' := hans'.next hθ' h.right.toSupplied hl₂
  refine (hb (h.apply hnext.forces hnext'.forces hl₂)).bind
    (fun _ => grows_unifyAt.bind fun _ => grows_pure _) ?_
  intro _ _ _ _ _
  exact same_unifyAt.last fun _ => grows_pure _

theorem congruent_ifZero (hc : Congruent limit Γ Δ (infer fuel · c) (infer fuel · c'))
    (ha : Congruent limit Γ Δ (infer fuel · a) (infer fuel · a'))
    (hb : Congruent limit Γ Δ (infer fuel · b) (infer fuel · b')) :
    Congruent limit Γ Δ (infer fuel · (.ifZero c a b)) (infer fuel · (.ifZero c' a' b')) := by
  intro env env' s h
  refine (hc h).bind (fun _ => grows_unifyAt.bind fun _ =>
    grows_branches (infer_grows fuel a) (infer_grows fuel b) fuel _ env _) ?_
  intro l s₁ hrun hrun' hl
  refine same_unifyAt.bind
    (fun _ => grows_branches (infer_grows fuel a) (infer_grows fuel b) fuel _ env _) ?_
  intro θ s₂ hu hu' hl₂
  obtain ⟨hans, hans'⟩ := h.answers hrun hrun' hl
  obtain ⟨rfl, hθ, -⟩ := forces_unifyAt hans.forces hans.named (b := .int) ⟨trivial, by simp⟩ hu
  obtain ⟨-, hθ', -⟩ := forces_unifyAt hans'.forces hans'.named (b := .int) ⟨trivial, by simp⟩ hu'
  exact same_branches ha hb h hθ hθ' hl

theorem congruent_ifEmpty (hc : Congruent limit Γ Δ (infer fuel · c) (infer fuel · c'))
    (ha : Congruent limit Γ Δ (infer fuel · a) (infer fuel · a'))
    (hb : Congruent limit Γ Δ (infer fuel · b) (infer fuel · b')) :
    Congruent limit Γ Δ (infer fuel · (.ifEmpty c a b)) (infer fuel · (.ifEmpty c' a' b')) := by
  intro env env' s h
  have hgrows := fun whole θ =>
    grows_branches (infer_grows fuel a) (infer_grows fuel b) fuel whole env θ
  refine (hc h).bind
    (fun _ => grows_fresh.bind fun _ => grows_unifyAt.bind fun _ => hgrows _ _) ?_
  intro l s₁ hrun hrun' hl
  refine (Same.refl fresh).bind (fun _ => grows_unifyAt.bind fun _ => hgrows _ _) ?_
  intro v s₂ hfresh _ hl₂
  refine same_unifyAt.bind (fun _ => hgrows _ _) ?_
  intro θ s₃ hu hu' _
  obtain ⟨rfl, rfl⟩ := run_fresh_ok hfresh
  have hs := NameSupply.before_fresh s₁
  obtain ⟨hans, hans'⟩ := h.answers hrun hrun' hl
  obtain ⟨rfl, hθ, -⟩ := forces_unifyAt (hans.forces.later hs) (hans.named.later hs)
    (shape_list.named hans.forces.named_fresh) hu
  obtain ⟨-, hθ', -⟩ := forces_unifyAt (hans'.forces.later hs) (hans'.named.later hs)
    (shape_list.named hans'.forces.named_fresh) hu'
  exact same_branches ha hb h hθ hθ' hl₂

end Forms

/-- **Inference has one outcome for terms that are alike**, by induction on how they
    are. -/
theorem infer_congruent (fuel : Nat) (limit : Int) {Γ Δ : List String} {a b : Term}
    (hab : Term.Alike Γ Δ a b) : Congruent limit Γ Δ (infer fuel · a) (infer fuel · b) := by
  induction hab with
  | @var Γ Δ x y hxy =>
    intro env env' s h
    exact (same_lookup (h.entries x y hxy)).last fun _ => grows_pure _
  | int | nil | unit | region => exact fun _ _ _ _ => .refl _
  -- both runs draw the same variable, for `x` in one and for `y` in the other
  | @abs Γ Δ x y b b' _ ih =>
    intro env env' s h
    refine (Same.refl fresh).bind (fun _ => (infer_grows fuel b _).bind fun _ => grows_pure _) ?_
    intro v s₁ hfresh _ hl
    obtain ⟨rfl, rfl⟩ := run_fresh_ok hfresh
    exact (ih (h.insert_fresh hl x y)).last fun _ => grows_pure _
  | app _ _ ihf iha =>
    intro env env' s h
    refine (congruent_both ihf iha h).bind
      (fun _ => grows_fresh.bind fun _ => grows_unifyAt.bind fun _ => grows_pure _) ?_
    intro _ _ _ _ _
    refine (Same.refl fresh).bind (fun _ => grows_unifyAt.bind fun _ => grows_pure _) ?_
    intro _ _ _ _ _
    exact same_unifyAt.last fun _ => grows_pure _
  | @letIn Γ Δ x y v v' b b' hv _ ihv ihb =>
    intro env env' s h
    refine (ihv h).bind (fun _ => (infer_grows fuel b _).bind fun _ => grows_pure _) ?_
    intro l s₁ hrun hrun' hl
    obtain ⟨hans, hans'⟩ := h.answers hrun hrun' hl
    exact (ihb (h.letIn hans hans' hv.isExpansive_eq hl x y)).last fun _ => grows_pure _
  | add _ _ ihl ihr => exact congruent_arith ihl ihr
  | sub _ _ ihl ihr => exact congruent_arith ihl ihr
  | cons _ _ iha ihl =>
    intro env env' s h
    refine (congruent_both iha ihl h).bind (fun _ => grows_unifyAt.bind fun _ => grows_pure _) ?_
    intro _ _ _ _ _
    exact same_unifyAt.last fun _ => grows_pure _
  | head _ ih => exact congruent_eliminate .list id ih
  | tail _ ih => exact congruent_eliminate .list .list ih
  | fix _ ih => exact congruent_eliminate (fun v => .arrow v v) id ih
  | deref _ ih => exact congruent_eliminate .ref id ih
  | ifZero _ _ _ ihc iht ihe => exact congruent_ifZero ihc iht ihe
  | ifEmpty _ _ _ ihc iht ihe => exact congruent_ifEmpty ihc iht ihe
  | mkRef _ ih =>
    intro env env' s h
    exact (ih h).last fun _ => grows_pure _
  | assign _ _ ihr ihv =>
    intro env env' s h
    refine (congruent_both ihr ihv h).bind (fun _ => grows_unifyAt.bind fun _ => grows_pure _) ?_
    intro _ _ _ _ _
    exact same_unifyAt.last fun _ => grows_pure _

/-- Alpha-equal terms have the same free variables, so they start with the same seeds. -/
theorem same_typing {env : TypeEnv} {a b : Term} (hr : env.Ready s limit)
    (hab : a.alphaEq b = true) : Same limit s (typing fuel env a) (typing fuel env b) := by
  intro hl
  simp only [typing, ← Term.freeVars_eq_of_alphaEq hab, ExceptT.run] at hl ⊢
  have hready := ready_seeds hr a.freeVars.toList
  generalize seeds a.freeVars.toList s = seeded at hl hready ⊢
  rcases hrun : infer fuel (seeded.1.merge env) a seeded.2 with ⟨r, s₁⟩
  have hl₁ : s₁.count ≤ limit := by
    rw [hrun] at hl
    cases r <;> exact hl
  have hseeded := hready (Int.le_trans (before_of_infer hrun).count hl₁)
  have hsame : Same limit seeded.2 (infer fuel (seeded.1.merge env) a)
      (infer fuel (seeded.1.merge env) b) :=
    infer_congruent fuel limit (Term.alike_of_alphaEq hab) ⟨hseeded, hseeded, .refl (entry _)⟩
  rw [Same, hrun] at hsame
  cases r with
  | error e =>
    obtain ⟨e', hrun', hfault⟩ := exists_of_outcome_eq_error (hsame hl₁)
    rw [hrun']
    simp only [outcome, Except.mapError, hfault]
  | ok r => rw [eq_of_outcome_eq_ok (hsame hl₁)]

end Infer

/-- **Inference is alpha-invariant.**  In a hygienic environment alpha-equal terms have
    the same typing, or inference rejects both with the same fault. -/
theorem inferType_of_alphaEq {fuel : Nat} {env : TypeEnv} {a b : Term} (henv : env.Hygienic)
    (hdrawn : Infer.drawn fuel env a ≤ 2 ^ 63) (hab : a.alphaEq b = true) :
    (∃ r, inferType fuel env a = .ok r ∧ inferType fuel env b = .ok r) ∨
      ∃ e e', inferType fuel env a = .error e ∧ inferType fuel env b = .error e' ∧
        e.fault = e'.fault := by
  have hsame := Infer.same_typing (henv.ready (Int.le_refl _)) hab hdrawn
  rcases hrun : Infer.typing fuel env a (.forTypes "" 0) with ⟨e | r, s₁⟩
  · rw [hrun] at hsame
    obtain ⟨e', hrun', hfault⟩ := Infer.exists_of_outcome_eq_error hsame
    exact .inr ⟨e, e', congrArg Prod.fst hrun, congrArg Prod.fst hrun', hfault⟩
  · rw [hrun] at hsame
    exact .inl ⟨r, congrArg Prod.fst hrun, congrArg Prod.fst (Infer.eq_of_outcome_eq_ok hsame)⟩

/-- The argument hides another entry in each of the terms, and a `let` is generalised
    below it. -/
theorem inferType_of_alphaEq_hidden :
    let env : TypeEnv := ((∅ : TypeEnv).insert "x" (.var "a")).insert "y" (.var "b")
    let a : Term := .abs "x" (.letIn "f" (.abs "z" (.var "x")) (.var "f"))
    let b : Term := .abs "y" (.letIn "g" (.abs "z" (.var "y")) (.var "g"))
    ∃ r, inferType 100 env a = .ok r ∧ inferType 100 env b = .ok r ∧
      r.type = .arrow (.var "T0") (.arrow (.var "T2") (.var "T0")) := by
  intro env a b
  have hrun : (fun p : Except TypeError Typing × NameSupply =>
      (p.1.toOption.map (·.type), p.2.count)) ((Infer.typing 100 env a).run (.forTypes "" 0)) =
        (some (.arrow (.var "T0") (.arrow (.var "T2") (.var "T0"))), 3) := by cbv
  have hdrawn : Infer.drawn 100 env a = 3 := congrArg Prod.snd hrun
  have htype : (inferType 100 env a).toOption.map (·.type) =
      some (.arrow (.var "T0") (.arrow (.var "T2") (.var "T0"))) := congrArg Prod.fst hrun
  have hcases : ∀ {x : String} {σ : Ty}, env[x]? = some σ → σ = .var "b" ∨ σ = .var "a" := by
    intro x σ hx
    rcases TypeEnv.getElem?_insert_some hx with ⟨-, rfl⟩ | ⟨-, hx⟩
    · exact .inl rfl
    · rcases TypeEnv.getElem?_insert_some hx with ⟨-, rfl⟩ | ⟨-, hx⟩
      · exact .inr rfl
      · exact absurd hx (by simp)
  have henv : env.Hygienic := by
    refine ⟨fun hx => ?_, fun hx v hv => ne_numbered ?_, fun hx hy v _ => ?_⟩
    · rcases hcases hx with rfl | rfl <;> exact Ty.Mono.prenex (t := .var _) trivial
    · rcases hcases hx with rfl | rfl <;> simp [Ty.freeVars, Ty.splitAll] at hv <;> rw [hv] <;>
        decide
    · rcases hcases hy with rfl | rfl <;> simp [Ty.splitAll]
  have hlimit : Infer.drawn 100 env a ≤ 2 ^ 63 := by omega
  obtain ⟨r, ha, hb⟩ | ⟨e, _, ha, -, -⟩ :=
    inferType_of_alphaEq henv hlimit (show a.alphaEq b = true by decide)
  · rw [ha] at htype
    exact ⟨r, ha, hb, Option.some.inj htype⟩
  · rw [ha] at htype
    exact absurd htype (by simp [Except.toOption])

end MiniML
