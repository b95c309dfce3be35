/-
  MiniML/Proofs/Typing/Soundness.lean
  ===================================
  **Soundness of inference** — what inference answers is a declarative typing.

  The answer to a term is a type `τ` and a substitution `θ`.  It is right if the
  term has the type `τ` wherever the variables stand for something that satisfies
  `θ` (`Infer.Types`).  Read this way answers can be put together without applying
  one substitution to another: a form whose parts force `θ₁`, `θ₂` and a
  unification is typed where all three are satisfied.  The `let` rule is the one
  place at which names have to be chosen.

  Which names an answer mentions does not depend on what is quantified; only the
  typing needs that no quantifier gets in the way (`Infer.Answer`).
-/
import Mathlib
import MiniML.Proofs.Typing.Declarative
import MiniML.Proofs.Typing.Hygiene
import MiniML.Proofs.Typing.Runs

namespace MiniML.Infer

open Subst

attribute [grind =] infer letScheme

/-- Wherever the variables satisfy `θ`, the term has the type that they make of
    `τ`. -/
def Types (env : TypeEnv) (θ : Subst) (t : Term) (τ : Ty) : Prop :=
  ∀ (f : String → Ty) (env' : TypeEnv), (∀ v, (f v).Mono) → Respects f θ → Covers f env env' →
    HasType env' t (τ.bind f)

/-- A right answer to the term `t`: known names only, and a typing if the environment
    is ready for the run. -/
structure Answer (limit : Int) (env : TypeEnv) (s : NameSupply) (t : Term) (τ : Ty) (θ : Subst)
    (s' : NameSupply) : Prop where
  forces : Forces env s θ s'
  named : Named env s s' τ
  types : env.Ready s limit → Types env θ t τ

/-- A part that infers `t` gives right answers as long as the count of its supply
    does not pass the limit. -/
def IsSound (limit : Int) (t : Term) (part : Part) : Prop :=
  ∀ ⦃env : TypeEnv⦄ ⦃s : NameSupply⦄ ⦃τ : Ty⦄ ⦃θ : Subst⦄ ⦃s' : NameSupply⦄,
    env.Supplied s limit → part env s = (.ok (τ, θ), s') → s'.count ≤ limit →
    Answer limit env s t τ θ s'

/-! ### Putting answers together -/

section Answers

variable {env : TypeEnv} {s s₁ s₂ : NameSupply} {limit : Int} {t : Term} {τ : Ty} {θ θ₁ θ₂ : Subst}

theorem Types.imp (h : Types env θ₁ t τ) (hθ : ∀ f, Respects f θ → Respects f θ₁) :
    Types env θ t τ :=
  fun f env' hf hr hc => h f env' hf (hθ f hr) hc

/-- A resolved type is as good as the type itself. -/
theorem Answer.apply (h : Answer limit env s t τ θ s₁) : Answer limit env s t (θ.apply τ) θ s₁ := by
  refine ⟨h.forces, h.forces.named_apply h.named, fun hready f env' hf hr hc => ?_⟩
  rw [h.forces.regular.bind_apply_of_respects hr h.named.1]
  exact h.types hready f env' hf hr hc

/-- The answer to a term stays right when more is forced afterwards. -/
theorem Answer.extend (h : Answer limit env s t τ θ₁ s₁) (hs : Forces env s θ s₂) (hle : s₁.Before s₂)
    (hθ : ∀ f, Respects f θ → Respects f θ₁) : Answer limit env s t τ θ s₂ :=
  ⟨hs, h.named.later hle, fun hready => (h.types hready).imp hθ⟩

theorem Covers.apply {f : String → Ty} {env' : TypeEnv} (h : Covers f env env')
    (hc : env.Cleared θ) (hθ : θ.Regular) (hf : Respects f θ) : Covers f (env.apply θ) env' := by
  intro x ρ hx
  rw [hc.instances_of_respects hθ hf] at hx
  exact h hx

/-- The answer of a second run, in the environment as the first run left it. -/
theorem Answer.next (h₁ : Forces env s θ₁ s₁) (hr : env.Supplied s limit)
    (h : Answer limit (env.apply θ₁) s₁ t τ θ₂ s₂) (hl : s₂.count ≤ limit) :
    Answer limit env s t τ (θ₁.compose θ₂) s₂ := by
  have hl₁ : s₁.count ≤ limit := Int.le_trans h.forces.before.count hl
  have hc := h₁.carries hr
  refine ⟨h₁.compose hr hc h.forces hl, h₁.named_next hr hc h.forces.before hl h.named, ?_⟩
  intro hready f env' hf hθ hcov
  obtain ⟨hf₁, hf₂⟩ := (h₁.respects_compose_iff hr hc h.forces hl).mp hθ
  exact h.types (h₁.ready hready hl₁) f env' hf hf₂
    (Covers.apply hcov (h₁.cleared hready hl₁) h₁.regular hf₁)

/-- The answer of a first run after a second one, its type resolved or not. -/
theorem Answer.before_next (h₁ : Answer limit env s t τ θ₁ s₁) (hr : env.Supplied s limit)
    (h₂ : Forces (env.apply θ₁) s₁ θ₂ s₂) (hl : s₂.count ≤ limit) :
    Answer limit env s t τ (θ₁.compose θ₂) s₂ ∧
      Answer limit env s t (θ₂.apply τ) (θ₁.compose θ₂) s₂ := by
  have hc := h₁.forces.carries hr
  have hiff := fun f => h₁.forces.respects_compose_iff hr hc h₂ hl (f := f)
  have hans := h₁.extend (h₁.forces.compose hr hc h₂ hl) h₂.before fun f hf => ((hiff f).mp hf).1
  refine ⟨hans, hans.forces, ⟨h₂.regular.mono_apply hans.named.1, ?_⟩, ?_⟩
  · refine h₂.regular.mem_apply (P := Known env s s₂) ?_ hans.named.1 hans.named.2
    exact h₂.within.imp fun v hv => (h₁.forces.known_next hr hc h₂.before hl hv).1
  · intro hready f env' hf hθ hcov
    rw [h₂.regular.bind_apply_of_respects ((hiff f).mp hθ).2 hans.named.1]
    exact hans.types hready f env' hf hθ hcov

/-- What a successful unification adds. -/
theorem forces_unifyAt {fuel : Nat} {whole : Term} {a b : Ty} {θ' : Subst} {s' : NameSupply}
    (h : Forces env s θ s₁) (ha : Named env s s₁ a) (hb : Named env s s₁ b)
    (hu : unifyAt fuel whole a b θ s₁ = (.ok θ', s')) :
    s' = s₁ ∧ Forces env s θ' s₁ ∧
      ∀ f, Respects f θ' ↔ Respects f θ ∧ a.bind f = b.bind f := by
  obtain ⟨hunify, rfl⟩ := run_unifyAt_ok hu
  have hans := unify_answers fuel h.regular ha.1 hb.1
  rw [hunify] at hans
  have hext : Unify.Extends θ [(a, b)] θ' := hans
  refine ⟨rfl, h.unify ha hb hext, fun f => ?_⟩
  rw [hext.respects_iff, Unify.solves_cons]
  simp only [Unify.solves_nil, and_true]

end Answers

/-! ### Shapes of types -/

/-- A type with one hole: replacing variables goes through it. -/
structure Shape (shape : Ty → Ty) : Prop where
  mono : ∀ {τ}, τ.Mono → (shape τ).Mono
  names : ∀ {τ v}, v ∈ (shape τ).freeVars → v ∈ τ.freeVars
  bind : ∀ f τ, (shape τ).bind f = shape (τ.bind f)

theorem shape_id : Shape id := ⟨id, id, fun _ _ => rfl⟩

theorem shape_list : Shape .list := ⟨id, id, fun _ _ => rfl⟩

theorem shape_ref : Shape .ref := ⟨id, id, fun _ _ => rfl⟩

theorem shape_endo : Shape fun v => .arrow v v :=
  ⟨fun h => ⟨h, h⟩, fun h => (Ty.mem_freeVars_arrow.mp h).elim id id, fun _ _ => rfl⟩

theorem Shape.named {shape : Ty → Ty} (h : Shape shape) {env : TypeEnv} {s s' : NameSupply}
    {τ : Ty} (hτ : Named env s s' τ) : Named env s s' (shape τ) :=
  ⟨h.mono hτ.1, fun v hv => hτ.2 v (h.names hv)⟩

/-! ### The combinators -/

section Combinators

variable {env : TypeEnv} {s s' : NameSupply} {limit : Int} {fuel : Nat} {whole : Term}

/-- Two parts one after the other: both answers hold under what both force, and the
    first may be resolved by what the second forces. -/
theorem both_sound {t₁ t₂ : Term} {first second : Part} (h₁ : IsSound limit t₁ first)
    (h₂ : IsSound limit t₂ second) (hg : ∀ env, Grows (second env)) (hr : env.Supplied s limit)
    {τ₁ τ₂ : Ty} {θ₁ θ₂ : Subst}
    (h : both env first second s = (.ok ((τ₁, θ₁), (τ₂, θ₂)), s')) (hl : s'.count ≤ limit) :
    (Answer limit env s t₁ τ₁ (θ₁.compose θ₂) s' ∧ Answer limit env s t₁ (θ₂.apply τ₁) (θ₁.compose θ₂) s') ∧
      Answer limit env s t₂ τ₂ (θ₁.compose θ₂) s' := by
  obtain ⟨l, s₁, hl₁, h⟩ := run_bind_ok h
  obtain ⟨r, s₂, hr₂, h⟩ := run_bind_ok h
  obtain ⟨rfl, rfl, rfl⟩ := run_pure_ok h
  have hs : s₁.Before s' := by
    have := hg (env.apply θ₁) s₁
    rwa [hr₂] at this
  have ha₁ := h₁ hr hl₁ (Int.le_trans hs.count hl)
  have ha₂ := h₂ (ha₁.forces.supplied hr) hr₂ hl
  exact ⟨ha₁.before_next hr ha₂.forces hl, ha₂.next ha₁.forces hr hl⟩

theorem arith_sound {t₁ t₂ : Term} {left right : Part} (h₁ : IsSound limit t₁ left)
    (h₂ : IsSound limit t₂ right) (hg : ∀ env, Grows (right env))
    (rule : ∀ {env}, HasType env t₁ .int → HasType env t₂ .int → HasType env whole .int) :
    IsSound limit whole (arith fuel whole · left right) := by
  intro env s τ θ s' hr h hl
  obtain ⟨⟨⟨τ₁, θ₁⟩, ⟨τ₂, θ₂⟩⟩, s₂, hboth, h⟩ := run_bind_ok h
  obtain ⟨θ₃, s₃, hu, h⟩ := run_bind_ok h
  obtain ⟨θ₄, s₄, hu', h⟩ := run_bind_ok h
  obtain ⟨rfl, rfl, rfl⟩ := run_pure_ok h
  have hint : ∀ s', Named env s s' .int := fun s' => ⟨trivial, by simp⟩
  obtain ⟨-, hu₂⟩ := run_unifyAt_ok hu'
  obtain ⟨-, hu₁⟩ := run_unifyAt_ok hu
  obtain ⟨⟨ha₁, -⟩, ha₂⟩ := both_sound h₁ h₂ hg hr hboth (hu₁ ▸ hu₂ ▸ hl)
  obtain ⟨rfl, hf, hiff⟩ := forces_unifyAt ha₁.forces ha₁.named (hint _) hu
  obtain ⟨rfl, hf', hiff'⟩ := forces_unifyAt hf ha₂.named (hint _) hu'
  refine ⟨hf', hint _, fun hready f env' hm hθ hcov => rule ?_ ?_⟩
  · obtain ⟨hθ, -⟩ := (hiff' f).mp hθ
    obtain ⟨hθ, heq⟩ := (hiff f).mp hθ
    have h₁ := ha₁.types hready f env' hm hθ hcov
    rwa [heq] at h₁
  · obtain ⟨hθ, heq⟩ := (hiff' f).mp hθ
    obtain ⟨hθ, -⟩ := (hiff f).mp hθ
    have h₂ := ha₂.types hready f env' hm hθ hcov
    rwa [heq] at h₂

theorem eliminate_sound {t : Term} {operand : Part} {shape result : Ty → Ty}
    (h₁ : IsSound limit t operand) (hshape : Shape shape) (hresult : Shape result)
    (rule : ∀ {env τ}, HasType env t (shape τ) → HasType env whole (result τ)) :
    IsSound limit whole (eliminate fuel whole · operand shape result) := by
  intro env s τ θ s' hr h hl
  obtain ⟨⟨τ₁, θ₁⟩, s₁, ho, h⟩ := run_bind_ok h
  obtain ⟨v, s₂, hfresh, h⟩ := run_bind_ok h
  obtain ⟨rfl, rfl⟩ := run_fresh_ok hfresh
  obtain ⟨θ₂, s₃, hu, h⟩ := run_bind_ok h
  obtain ⟨rfl, rfl, rfl⟩ := run_pure_ok h
  obtain ⟨-, rfl⟩ := run_unifyAt_ok hu
  have hs := NameSupply.before_fresh s₁
  have ha := h₁ hr ho (Int.le_trans hs.count hl)
  have hv := ha.forces.named_fresh
  obtain ⟨-, hf, hiff⟩ :=
    forces_unifyAt (ha.forces.later hs) (ha.named.later hs) (hshape.named hv) hu
  refine Answer.apply ⟨hf, hresult.named hv, fun hready f env' hm hθ hcov => ?_⟩
  obtain ⟨hθ, heq⟩ := (hiff f).mp hθ
  rw [hresult.bind]
  refine rule ?_
  rw [← hshape.bind, ← heq]
  exact ha.types hready f env' hm hθ hcov

/-- The branches of a conditional, when the condition forced `θ`. -/
theorem branches_sound {t₁ t₂ : Term} {first second : Part} {θ : Subst} {s₀ : NameSupply}
    (h₁ : IsSound limit t₁ first) (h₂ : IsSound limit t₂ second)
    (hg' : ∀ env, Grows (second env)) (hr : env.Supplied s₀ limit)
    (hθ : Forces env s₀ θ s) {τ : Ty} {θ' : Subst}
    (h : branches fuel whole env θ first second s = (.ok (τ, θ'), s')) (hl : s'.count ≤ limit) :
    Answer limit env s₀ t₁ τ θ' s' ∧ (env.Ready s₀ limit → Types env θ' t₂ τ) ∧
      ∀ f, Respects f θ' → Respects f θ := by
  obtain ⟨⟨τ₁, θ₁⟩, s₁, hfirst, h⟩ := run_bind_ok h
  obtain ⟨⟨τ₂, θ₂⟩, s₂, hsecond, h⟩ := run_bind_ok h
  obtain ⟨θ₃, s₃, hu, h⟩ := run_bind_ok h
  obtain ⟨rfl, rfl, rfl⟩ := run_pure_ok h
  obtain ⟨-, rfl⟩ := run_unifyAt_ok hu
  have hs₂ : s₁.Before s' := by
    have := hg' (env.apply (θ.compose θ₁)) s₁
    rwa [hsecond] at this
  have hl₁ : s₁.count ≤ limit := Int.le_trans hs₂.count hl
  have ha := h₁ (hθ.supplied hr) hfirst hl₁
  have ha₁ := ha.next hθ hr hl₁
  have hb := h₂ (ha₁.forces.supplied hr) hsecond hl
  have ha₂ := (ha₁.before_next hr hb.forces hl).1
  have hb₂ := hb.next ha₁.forces hr hl
  obtain ⟨-, hf, hiff⟩ := forces_unifyAt ha₂.forces ha₂.named hb₂.named hu
  have hres := (ha₂.extend hf (.refl _) fun f hf => ((hiff f).mp hf).1).apply
  refine ⟨hres, fun hready f env' hm hθ' hcov => ?_, fun f hf => ?_⟩
  · rw [hf.regular.bind_apply_of_respects hθ' ha₂.named.1, ((hiff f).mp hθ').2]
    exact hb₂.types hready f env' hm ((hiff f).mp hθ').1 hcov
  · have hc := hθ.carries hr
    have hc₁ := ha₁.forces.carries hr
    have hf₂ := (ha₁.forces.respects_compose_iff hr hc₁ hb.forces hl).mp ((hiff f).mp hf).1
    exact ((hθ.respects_compose_iff hr hc ha.forces hl₁).mp hf₂.1).1

end Combinators

/-! ### Variables and binders -/

section Binders

variable {env : TypeEnv} {s s' : NameSupply} {limit : Int}

/-- A fresh instance of a scheme is an instance wherever its variables go. -/
theorem lookup_sound {x : String} {τ : Ty} (hr : env.Supplied s limit)
    (h : lookup env x s = (.ok τ, s')) : Answer limit env s (.var x) τ ∅ s' := by
  obtain ⟨σ, hσ, rfl, rfl⟩ := run_lookup_ok h
  obtain ⟨number, hrange, -, heq⟩ := σ.instantiate_eq (hr.prenex hσ) s
  have hbody : σ.splitAll.2.Mono := hr.prenex hσ
  have hmono : (σ.splitAll.2.bind fun v =>
      .var (if v ∈ σ.splitAll.1 then s.nameAt (number v) else v)).Mono :=
    hbody.bind fun _ => trivial
  rw [heq]
  refine ⟨.empty (σ.before_instantiate s), ⟨hmono, fun v hv => ?_⟩, ?_⟩
  · obtain ⟨w, hw, hv⟩ := (Ty.mem_freeVars_bind hbody).mp hv
    rw [Ty.mem_freeVars_var] at hv
    subst hv
    by_cases hq : w ∈ σ.splitAll.1
    · rw [if_pos hq]
      exact .inr ⟨number w, (hrange w hq).1, (hrange w hq).2, rfl⟩
    · rw [if_neg hq]
      exact .inl (TypeEnv.freeVars_subset hσ w (Ty.mem_freeVars_iff_splitAll.mpr ⟨hw, hq⟩))
  · intro _ f env' hf _ hcov
    have hinst : σ.HasInstance f ((σ.splitAll.2.bind fun v =>
        .var (if v ∈ σ.splitAll.1 then s.nameAt (number v) else v)).bind f) := by
      refine ⟨hmono.bind hf,
        fun v => f (if v ∈ σ.splitAll.1 then s.nameAt (number v) else v), fun v hv => ?_, ?_⟩
      · exact congrArg f (if_neg (Ty.mem_freeVars_iff_splitAll.mp hv).2)
      · rw [Ty.bind_bind hbody]
        rfl
    obtain ⟨σ', hσ', hi⟩ := hcov ⟨σ, hσ, hinst⟩
    exact .var hσ' hi

/-- The body of an abstraction is inferred with a fresh type for the argument. -/
theorem abs_sound {x : String} {body : Term} {τ : Ty} {θ : Subst} (hl : s'.count ≤ limit)
    (h : Answer limit (env.insert x (.var s.fresh.1)) s.fresh.2 body τ θ s') :
    Answer limit env s (.abs x body) (.arrow (θ.apply (.var s.fresh.1)) τ) θ s' := by
  have hs := NameSupply.before_fresh s
  have hknown : ∀ v, Known (env.insert x (.var s.fresh.1)) s.fresh.2 s' v → Known env s s' v := by
    rintro v (hv | hv)
    · exact (known_of_mem_insert_fresh hv).later h.forces.before
    · exact .inr (hv.earlier hs)
  have hf : Forces env s θ s' :=
    ⟨hs.trans h.forces.before, h.forces.regular, h.forces.within.imp hknown⟩
  have harg := hf.named_apply ((named_fresh env s).later h.forces.before)
  refine ⟨hf, ⟨⟨harg.1, h.named.1⟩, fun v hv => ?_⟩, fun hready f env' hm hθ hcov => ?_⟩
  · rcases Ty.mem_freeVars_arrow.mp hv with hv | hv
    · exact harg.2 v hv
    · exact hknown v (h.named.2 v hv)
  · rw [Ty.bind, hf.regular.bind_apply_of_respects hθ (t := .var _) trivial]
    exact .abs (hm _) (h.types (hready.insert_fresh (Int.le_trans h.forces.before.count hl) x) f _ hm
      hθ (hcov.insert_mono hm (τ := .var _) trivial x))

/-- `let` with a generalised type.  The variables that are generalised are renamed
    apart from the target environment before the value is typed in it. -/
theorem types_letPoly {x : String} {v b : Term} {τ₁ τ₂ σ : Ty} {θ θ₁ θ₂ : Subst}
    (hexp : v.isExpansive = false) (hv : Types env θ₁ v τ₁) (hτ₁ : τ₁.Mono) (h₁ : θ₁.Regular)
    (hclear : env.Cleared θ₁)
    (hσ : Ty.Generalizes (env.apply θ₁).freeTypeVars (θ₁.apply τ₁) σ)
    (hb : Types ((env.apply θ₁).insert x σ) θ₂ b τ₂)
    (hθ : ∀ f, Respects f θ → Respects f θ₁ ∧ Respects f θ₂) :
    Types env θ (.letIn x v b) τ₂ := by
  intro f env' hf hr hcov
  obtain ⟨hf₁, hf₂⟩ := hθ f hr
  obtain ⟨β, hβ, havoid⟩ := exists_renaming
    (env'.freeTypeVars.toList ++ (θ₁.apply τ₁).freeVars.flatMap fun u => (f u).freeVars)
  let g (w : String) : Ty := if w ∈ (env.apply θ₁).freeTypeVars then f w else .var (β w)
  have hg : ∀ w, (g w).Mono := by
    intro w
    simp only [g]
    split
    · exact hf w
    · exact trivial
  -- `g` after `θ₁` satisfies `θ₁` and does to the environment what `f` does
  have hcov' : Covers (fun w => (θ₁.resolve w).bind g) env env' := by
    intro y ρ hy
    rw [TypeEnv.instances_congr (g := f)] at hy
    · exact hcov hy
    · intro w hw
      rw [← h₁.bind_resolve_of_respects hf₁ w]
      refine Ty.bind_congr fun u hu => if_pos ?_
      exact hclear.mem_freeTypeVars_apply.mpr ⟨w, hw, hu⟩
  have hresp : Respects (fun w => (θ₁.resolve w).bind g) θ₁ := by
    intro w t hw
    change (θ₁.resolve w).bind g = _
    rw [h₁.resolve_of_bound hw, Ty.bind_bind (h₁.mono hw)]
  have htyped := hv _ env' (fun w => (h₁.mono_resolve w).bind hg) hresp hcov'
  rw [← Ty.bind_bind hτ₁, ← apply_eq_bind θ₁ hτ₁] at htyped
  have hgen := Ty.generalizes_generalize env'.freeTypeVars ((θ₁.apply τ₁).bind g)
  refine .letPoly hexp htyped hgen (hb f _ hf hf₂ ?_)
  refine (Covers.apply hcov hclear h₁ hf₁).insert (fun ρ hρ => ?_) x
  refine hσ.hasInstance_rename (h₁.mono_apply hτ₁) hf hβ (fun w hw => ?_) (fun w u hu hw => ?_)
    hgen hρ
  · exact havoid w (List.mem_append_left _ (Std.ExtTreeSet.mem_toList.mpr hw))
  · exact havoid w (List.mem_append_right _ (List.mem_flatMap.mpr ⟨u, hu, hw⟩))

theorem types_letMono {x : String} {v b : Term} {τ₁ τ₂ : Ty} {θ θ₁ θ₂ : Subst}
    (hexp : v.isExpansive = true) (hv : Types env θ₁ v τ₁) (hτ₁ : τ₁.Mono) (h₁ : θ₁.Regular)
    (hclear : env.Cleared θ₁) (hb : Types ((env.apply θ₁).insert x (θ₁.apply τ₁)) θ₂ b τ₂)
    (hθ : ∀ f, Respects f θ → Respects f θ₁ ∧ Respects f θ₂) :
    Types env θ (.letIn x v b) τ₂ := by
  intro f env' hf hr hcov
  obtain ⟨hf₁, hf₂⟩ := hθ f hr
  have hcov₁ := Covers.apply hcov hclear h₁ hf₁
  have hbody := hb f _ hf hf₂ (hcov₁.insert_mono hf (h₁.mono_apply hτ₁) x)
  rw [h₁.bind_apply_of_respects hf₁ hτ₁] at hbody
  exact .letMono hexp (hv f env' hf hf₁ hcov) hbody

theorem prenex_letScheme {v : Term} {τ : Ty} (hτ : τ.Mono) : (letScheme env v τ).Prenex := by
  rw [letScheme]
  split
  · exact hτ.prenex
  · exact (Ty.generalizes_generalize _ _).prenex hτ

theorem mem_freeVars_letScheme {v : Term} {τ : Ty} {u : String}
    (hu : u ∈ (letScheme env v τ).freeVars) : u ∈ τ.freeVars := by
  rw [letScheme] at hu
  split at hu
  · exact hu
  · exact ((Ty.generalizes_generalize _ _).mem_freeVars_iff.mp hu).1

theorem mem_quantified_letScheme {v : Term} {τ : Ty} (hτ : τ.Mono) {q : String}
    (hq : q ∈ (letScheme env v τ).splitAll.1) : q ∈ τ.freeVars ∧ q ∉ env.freeTypeVars := by
  rw [letScheme] at hq
  split at hq
  · rw [Ty.splitAll_of_mono hτ] at hq
    exact absurd hq (by simp)
  · exact ((Ty.generalizes_generalize _ _).mem_quantified_iff hτ).mp hq

/-- The environment of the body of a `let` carries known names only. -/
theorem carries_letScheme {v : Term} {τ : Ty} {θ : Subst} (hr : env.Supplied s limit)
    (hf : Forces env s θ s') (hτ : Named env s s' τ) (x : String) :
    Carries env s θ s' ((env.apply θ).insert x (letScheme (env.apply θ) v (θ.apply τ))) := by
  intro u hu
  rcases TypeEnv.mem_freeTypeVars_insert hu with hu | hu
  · have hu := mem_freeVars_letScheme hu
    exact ⟨(hf.named_apply hτ).2 u hu, Unify.resolved_apply hf.regular hτ.1 u hu⟩
  · exact hf.carries hr u hu

theorem supplied_letScheme {v : Term} {τ : Ty} {θ : Subst} (hr : env.Supplied s limit)
    (hf : Forces env s θ s') (hτ : Named env s s' τ) (x : String) :
    TypeEnv.Supplied ((env.apply θ).insert x (letScheme (env.apply θ) v (θ.apply τ))) s' limit := by
  refine hr.of_known hf.before (fun hy => ?_) fun u hu => (carries_letScheme hr hf hτ x u hu).1
  rcases TypeEnv.getElem?_insert_some hy with ⟨-, rfl⟩ | ⟨-, hy⟩
  · exact prenex_letScheme (hf.named_apply hτ).1
  · exact (hf.supplied hr).prenex hy

/-- The names that a generalised type quantifies are not known in its environment. -/
theorem ready_letScheme {v : Term} {τ : Ty} {θ : Subst} (hr : env.Ready s limit)
    (hl : s'.count ≤ limit) (hf : Forces env s θ s') (hτ : Named env s s' τ) (x : String) :
    TypeEnv.Ready ((env.apply θ).insert x (letScheme (env.apply θ) v (θ.apply τ))) s' limit := by
  have hτ' := hf.named_apply hτ
  refine (hf.ready hr hl).insert x (prenex_letScheme hτ'.1) (fun u hu => ?_) fun q hq => ?_
  · have hknown := hτ'.2 u (mem_freeVars_letScheme hu)
    exact ⟨hknown.spares hr.toSupplied hf.before,
      fun hq => hr.not_known hl (hq.of_apply hf.regular hr.prenex) hknown⟩
  · obtain ⟨hq, hnot⟩ := mem_quantified_letScheme hτ'.1 hq
    exact ⟨hnot, (hτ'.2 q hq).spares hr.toSupplied hf.before⟩

/-- The body of a `let` is inferred with the scheme of its value. -/
theorem letIn_sound {x : String} {v b : Term} {τ₁ τ₂ : Ty} {θ₁ θ₂ : Subst} {s₁ : NameSupply}
    (hr : env.Supplied s limit) (hl : s'.count ≤ limit) (hv : Answer limit env s v τ₁ θ₁ s₁)
    (hb : Answer limit ((env.apply θ₁).insert x (letScheme (env.apply θ₁) v (θ₁.apply τ₁))) s₁ b
      τ₂ θ₂ s') :
    Answer limit env s (.letIn x v b) τ₂ (θ₁.compose θ₂) s' := by
  have hl₁ : s₁.count ≤ limit := Int.le_trans hb.forces.before.count hl
  have hc := carries_letScheme (v := v) hr hv.forces hv.named x
  refine ⟨hv.forces.compose hr hc hb.forces hl,
    hv.forces.named_next hr hc hb.forces.before hl hb.named, fun hready => ?_⟩
  have hclear := hv.forces.cleared hready hl₁
  have hθ := fun f => (hv.forces.respects_compose_iff hr hc hb.forces hl (f := f)).mp
  have hbody := hb.types (ready_letScheme hready hl₁ hv.forces hv.named x)
  rw [letScheme] at hbody
  split at hbody
  · rename_i hexp
    exact types_letMono hexp (hv.types hready) hv.named.1 hv.forces.regular hclear hbody hθ
  · rename_i hexp
    exact types_letPoly (by simpa using hexp) (hv.types hready) hv.named.1 hv.forces.regular hclear
      (Ty.generalizes_generalize _ _) hbody hθ

end Binders

/-! ### The other forms -/

section Forms

variable {limit : Int} {fuel : Nat}

theorem var_sound (x : String) : IsSound limit (.var x) (infer fuel · (.var x)) := by
  intro env s τ θ s' hr h hl
  simp only [infer] at h
  obtain ⟨τ₁, s₁, hlookup, h⟩ := run_bind_ok h
  obtain ⟨rfl, rfl, rfl⟩ := run_pure_ok h
  exact lookup_sound hr hlookup

/-- A form without parts whose type has a fresh variable in it. -/
theorem fresh_sound {t : Term} {shape : Ty → Ty} (hshape : Shape shape)
    (rule : ∀ {env τ}, τ.Mono → HasType env t (shape τ)) :
    IsSound limit t fun _ => do
      let v ← fresh
      return (shape v, ∅) := by
  intro env s τ θ s' hr h hl
  obtain ⟨v, s₁, hfresh, h⟩ := run_bind_ok h
  obtain ⟨rfl, rfl⟩ := run_fresh_ok hfresh
  obtain ⟨rfl, rfl, rfl⟩ := run_pure_ok h
  refine ⟨.empty (NameSupply.before_fresh s), hshape.named (named_fresh env s), ?_⟩
  intro _ f env' hm _ _
  rw [hshape.bind]
  exact rule (hm _)

/-- A form without parts whose type has no variables. -/
theorem constant_sound {t : Term} {τ : Ty} (hτ : τ.Mono) (hnil : τ.freeVars = [])
    (rule : ∀ {env}, HasType env t τ) : IsSound limit t fun _ => pure (τ, ∅) := by
  intro env s τ' θ s' hr h hl
  obtain ⟨rfl, rfl, rfl⟩ := run_pure_ok h
  refine ⟨.empty (.refl s'), ⟨hτ, by simp [hnil]⟩, fun _ f env' _ _ _ => ?_⟩
  rw [Ty.bind_eq_self (by simp [hnil])]
  exact rule

theorem app_sound {f a : Term} (ihf : IsSound limit f (infer fuel · f))
    (iha : IsSound limit a (infer fuel · a)) :
    IsSound limit (.app f a) (infer fuel · (.app f a)) := by
  intro env s τ θ s' hr h hl
  simp only [infer] at h
  obtain ⟨⟨⟨τ₁, θ₁⟩, ⟨τ₂, θ₂⟩⟩, s₂, hboth, h⟩ := run_bind_ok h
  obtain ⟨v, s₃, hfresh, h⟩ := run_bind_ok h
  obtain ⟨rfl, rfl⟩ := run_fresh_ok hfresh
  obtain ⟨θ₃, s₄, hu, h⟩ := run_bind_ok h
  obtain ⟨rfl, rfl, rfl⟩ := run_pure_ok h
  obtain ⟨-, rfl⟩ := run_unifyAt_ok hu
  have hs := NameSupply.before_fresh s₂
  obtain ⟨⟨-, hf⟩, ha⟩ :=
    both_sound ihf iha (infer_grows fuel a) hr hboth (Int.le_trans hs.count hl)
  have hv := ha.forces.named_fresh
  obtain ⟨-, hforces, hiff⟩ := forces_unifyAt (hf.forces.later hs) (hf.named.later hs)
    (named_arrow (ha.named.later hs) hv) hu
  refine Answer.apply ⟨hforces, hv, fun hready g env' hm hθ hcov => ?_⟩
  obtain ⟨hθ, heq⟩ := (hiff g).mp hθ
  have htf := hf.types hready g env' hm hθ hcov
  rw [heq] at htf
  exact .app htf (ha.types hready g env' hm hθ hcov)

theorem cons_sound {a l : Term} (iha : IsSound limit a (infer fuel · a))
    (ihl : IsSound limit l (infer fuel · l)) :
    IsSound limit (.cons a l) (infer fuel · (.cons a l)) := by
  intro env s τ θ s' hr h hl
  simp only [infer] at h
  obtain ⟨⟨⟨τ₁, θ₁⟩, ⟨τ₂, θ₂⟩⟩, s₂, hboth, h⟩ := run_bind_ok h
  obtain ⟨θ₃, s₃, hu, h⟩ := run_bind_ok h
  obtain ⟨rfl, rfl, rfl⟩ := run_pure_ok h
  obtain ⟨-, rfl⟩ := run_unifyAt_ok hu
  obtain ⟨⟨-, ha⟩, hl⟩ := both_sound iha ihl (infer_grows fuel l) hr hboth hl
  obtain ⟨-, hforces, hiff⟩ := forces_unifyAt ha.forces hl.named (shape_list.named ha.named) hu
  refine Answer.apply ⟨hforces, shape_list.named ha.named, fun hready g env' hm hθ hcov => ?_⟩
  obtain ⟨hθ, heq⟩ := (hiff g).mp hθ
  have htl := hl.types hready g env' hm hθ hcov
  rw [heq] at htl
  exact .cons (ha.types hready g env' hm hθ hcov) htl

theorem assign_sound {r v : Term} (ihr : IsSound limit r (infer fuel · r))
    (ihv : IsSound limit v (infer fuel · v)) :
    IsSound limit (.assign r v) (infer fuel · (.assign r v)) := by
  intro env s τ θ s' hr h hl
  simp only [infer] at h
  obtain ⟨⟨⟨τ₁, θ₁⟩, ⟨τ₂, θ₂⟩⟩, s₂, hboth, h⟩ := run_bind_ok h
  obtain ⟨θ₃, s₃, hu, h⟩ := run_bind_ok h
  obtain ⟨rfl, rfl, rfl⟩ := run_pure_ok h
  obtain ⟨-, rfl⟩ := run_unifyAt_ok hu
  obtain ⟨⟨-, ha⟩, hv⟩ := both_sound ihr ihv (infer_grows fuel v) hr hboth hl
  obtain ⟨-, hforces, hiff⟩ := forces_unifyAt ha.forces ha.named (shape_ref.named hv.named) hu
  refine ⟨hforces, ⟨trivial, by simp⟩, fun hready g env' hm hθ hcov => ?_⟩
  obtain ⟨hθ, heq⟩ := (hiff g).mp hθ
  have htr := ha.types hready g env' hm hθ hcov
  rw [heq] at htr
  exact .assign htr (hv.types hready g env' hm hθ hcov)

theorem ifZero_sound {c t e : Term} (ihc : IsSound limit c (infer fuel · c))
    (iht : IsSound limit t (infer fuel · t)) (ihe : IsSound limit e (infer fuel · e)) :
    IsSound limit (.ifZero c t e) (infer fuel · (.ifZero c t e)) := by
  intro env s τ θ s' hr h hl
  simp only [infer] at h
  obtain ⟨⟨τ₁, θ₁⟩, s₁, hcond, h⟩ := run_bind_ok h
  obtain ⟨θ₂, s₂, hu, hbranches⟩ := run_bind_ok h
  obtain ⟨-, rfl⟩ := run_unifyAt_ok hu
  have hs : s₂.Before s' := by
    have := grows_branches (infer_grows fuel t) (infer_grows fuel e) fuel (.ifZero c t e) env θ₂ s₂
    rwa [hbranches] at this
  have hc := ihc hr hcond (Int.le_trans hs.count hl)
  obtain ⟨-, hforces, hiff⟩ :=
    forces_unifyAt hc.forces hc.named (b := .int) ⟨trivial, by simp⟩ hu
  obtain ⟨ht, he, hθ₂⟩ :=
    branches_sound iht ihe (infer_grows fuel e) hr hforces hbranches hl
  refine ⟨ht.forces, ht.named, fun hready g env' hm hθ hcov => ?_⟩
  obtain ⟨hθ₁, heq⟩ := (hiff g).mp (hθ₂ g hθ)
  have htc := hc.types hready g env' hm hθ₁ hcov
  rw [heq] at htc
  exact .ifZero htc (ht.types hready g env' hm hθ hcov) (he hready g env' hm hθ hcov)

theorem ifEmpty_sound {c t e : Term} (ihc : IsSound limit c (infer fuel · c))
    (iht : IsSound limit t (infer fuel · t)) (ihe : IsSound limit e (infer fuel · e)) :
    IsSound limit (.ifEmpty c t e) (infer fuel · (.ifEmpty c t e)) := by
  intro env s τ θ s' hr h hl
  simp only [infer] at h
  obtain ⟨⟨τ₁, θ₁⟩, s₁, hcond, h⟩ := run_bind_ok h
  obtain ⟨v, s₂, hfresh, h⟩ := run_bind_ok h
  obtain ⟨rfl, rfl⟩ := run_fresh_ok hfresh
  obtain ⟨θ₂, s₃, hu, hbranches⟩ := run_bind_ok h
  obtain ⟨-, rfl⟩ := run_unifyAt_ok hu
  have hs : s₁.fresh.2.Before s' := by
    have := grows_branches (infer_grows fuel t) (infer_grows fuel e) fuel (.ifEmpty c t e) env θ₂
      s₁.fresh.2
    rwa [hbranches] at this
  have hs₁ := NameSupply.before_fresh s₁
  have hc := ihc hr hcond (Int.le_trans (hs₁.trans hs).count hl)
  obtain ⟨-, hforces, hiff⟩ := forces_unifyAt (hc.forces.later hs₁) (hc.named.later hs₁)
    (shape_list.named hc.forces.named_fresh) hu
  obtain ⟨ht, he, hθ₂⟩ :=
    branches_sound iht ihe (infer_grows fuel e) hr hforces hbranches hl
  refine ⟨ht.forces, ht.named, fun hready g env' hm hθ hcov => ?_⟩
  obtain ⟨hθ₁, heq⟩ := (hiff g).mp (hθ₂ g hθ)
  have htc := hc.types hready g env' hm hθ₁ hcov
  rw [heq] at htc
  exact .ifEmpty htc (ht.types hready g env' hm hθ hcov) (he hready g env' hm hθ hcov)

end Forms

/-- **Inference gives right answers**, by induction on the term. -/
theorem infer_sound (fuel : Nat) (limit : Int) (t : Term) :
    IsSound limit t (infer fuel · t) := by
  induction t with
  | var x => exact var_sound x
  | int n => exact constant_sound (τ := .int) trivial rfl .int
  | unit => exact constant_sound (τ := .unit) trivial rfl .unit
  | nil => exact fresh_sound shape_list .nil
  | region i => exact fresh_sound shape_ref .region
  -- forms that share a shape are lemmas of their own; those of one part are followed here
  | abs x b ih =>
    intro env s τ θ s' hr h hl
    simp only [infer] at h
    obtain ⟨v, s₁, hfresh, h⟩ := run_bind_ok h
    obtain ⟨rfl, rfl⟩ := run_fresh_ok hfresh
    obtain ⟨⟨τ₁, θ₁⟩, s₂, hbody, h⟩ := run_bind_ok h
    obtain ⟨rfl, rfl, rfl⟩ := run_pure_ok h
    exact abs_sound hl (ih (hr.insert_fresh x) hbody hl)
  | app f a ihf iha => exact app_sound ihf iha
  | letIn x v b ihv ihb =>
    intro env s τ θ s' hr h hl
    simp only [infer] at h
    obtain ⟨⟨τ₁, θ₁⟩, s₁, hvalue, h⟩ := run_bind_ok h
    obtain ⟨⟨τ₂, θ₂⟩, s₂, hbody, h⟩ := run_bind_ok h
    obtain ⟨rfl, rfl, rfl⟩ := run_pure_ok h
    have hl₁ := Int.le_trans (before_of_infer hbody).count hl
    have hv := ihv hr hvalue hl₁
    exact letIn_sound hr hl hv (ihb (supplied_letScheme hr hv.forces hv.named x) hbody hl)
  | add l r ihl ihr => exact arith_sound ihl ihr (infer_grows fuel r) .add
  | sub l r ihl ihr => exact arith_sound ihl ihr (infer_grows fuel r) .sub
  | cons a l iha ihl => exact cons_sound iha ihl
  | head l ih => exact eliminate_sound ih shape_list shape_id .head
  | tail l ih => exact eliminate_sound ih shape_list shape_list .tail
  | fix f ih => exact eliminate_sound ih shape_endo shape_id .fix
  | deref e ih => exact eliminate_sound ih shape_ref shape_id .deref
  | ifZero c t e ihc iht ihe => exact ifZero_sound ihc iht ihe
  | ifEmpty c t e ihc iht ihe => exact ifEmpty_sound ihc iht ihe
  | mkRef e ih =>
    intro env s τ θ s' hr h hl
    simp only [infer] at h
    obtain ⟨⟨τ₁, θ₁⟩, s₁, he, h⟩ := run_bind_ok h
    obtain ⟨rfl, rfl, rfl⟩ := run_pure_ok h
    have ha := ih hr he hl
    exact ⟨ha.forces, shape_ref.named ha.named,
      fun hready g env' hm hθ hcov => .mkRef (ha.types hready g env' hm hθ hcov)⟩
  | assign r v ihr ihv => exact assign_sound ihr ihv

/-- A typing is a declarative typing in the environment that it leaves. -/
theorem typing_sound {env : TypeEnv} {s s' : NameSupply} {limit : Int} {fuel : Nat} {t : Term}
    {r : Typing} (hr : env.Ready s limit) (h : typing fuel env t s = (.ok r, s'))
    (hl : s'.count ≤ limit) : HasType ((env.apply r.subst).merge r.free) t r.type := by
  obtain ⟨τ, hrun, htype, henv⟩ := run_typing_ok h
  have hready := ready_seeds hr t.freeVars.toList (Int.le_trans (before_of_infer hrun).count hl)
  have ha := infer_sound fuel limit t hready.toSupplied hrun hl
  rw [htype, henv, apply_eq_bind _ ha.named.1]
  refine ha.types hready _ _ ha.forces.regular.mono_resolve ha.forces.regular.respects_resolve ?_
  intro x ρ hx
  rw [(ha.forces.cleared hready hl).instances_apply ha.forces.regular]
  simpa only [Ty.bind_var] using hx

/-- Whatever is quantified, a typing uses known names only, and its type is resolved. -/
theorem typing_named {env : TypeEnv} {s s' : NameSupply} {limit : Int} {fuel : Nat} {t : Term}
    {r : Typing} (hr : env.Supplied s limit) (h : typing fuel env t s = (.ok r, s'))
    (hl : s'.count ≤ limit) :
    Forces env s r.subst s' ∧ Named env s s' r.type ∧
      ∀ v ∈ r.type.freeVars, r.subst[v]? = none := by
  obtain ⟨τ, hrun, htype, -⟩ := run_typing_ok h
  have ha := infer_sound fuel limit t (supplied_seeds hr t.freeVars.toList) hrun hl
  have hknown : ∀ v, Known ((seeds t.freeVars.toList s).1.merge env) (seeds t.freeVars.toList s).2
      s' v → Known env s s' v := fun v => known_of_seeds ha.forces.before
  have hforces : Forces env s r.subst s' :=
    ⟨(before_seeds _ s).trans ha.forces.before, ha.forces.regular, ha.forces.within.imp hknown⟩
  have hnamed : Named env s s' τ := ⟨ha.named.1, fun v hv => hknown v (ha.named.2 v hv)⟩
  rw [htype]
  exact ⟨hforces, hforces.named_apply hnamed, Unify.resolved_apply hforces.regular hnamed.1⟩

/-- A typing in an environment that binds every free variable of the term: no types
    are found for free variables. -/
theorem typing_scoped {env : TypeEnv} {s s' : NameSupply} {limit : Int} {fuel : Nat} {t : Term}
    {r : Typing} (hr : env.Ready s limit) (hscope : ∀ x ∈ t.freeVars, x ∈ env)
    (h : typing fuel env t s = (.ok r, s')) (hl : s'.count ≤ limit) :
    (env.apply r.subst).merge r.free = env.apply r.subst ∧
      HasType (env.apply r.subst) t r.type := by
  have htyped := typing_sound hr h hl
  obtain ⟨τ, -, -, henv⟩ := run_typing_ok h
  rw [merge_seeds_of_scoped hscope] at henv
  exact ⟨henv, henv ▸ htyped⟩

end MiniML.Infer

namespace MiniML

/-- **Soundness of inference.**  In a hygienic environment the inferred type is a
    type of the term, once the inferred substitution has been applied to the
    environment and the types of the other free variables have been added.  The
    numbers of the type variables must not overflow their 64-bit words. -/
theorem inferType_sound {fuel : Nat} {env : TypeEnv} {t : Term} {r : Typing}
    (henv : env.Hygienic) (hdrawn : Infer.drawn fuel env t ≤ 2 ^ 63)
    (h : inferType fuel env t = .ok r) : HasType ((env.apply r.subst).merge r.free) t r.type :=
  Infer.typing_sound (henv.ready (Int.le_refl _)) (Prod.ext h rfl) hdrawn

theorem ne_numbered {v : String} (h : v.toList.head? ≠ some 'T') (n : Nat) :
    v ≠ "T" ++ toString n := by
  rintro rfl
  exact h (by simp)

/-- `let g = f in g y`, where `f` makes lists of one unknown type of whatever it is
    applied to. -/
theorem inferType_sound_let :
    let env : TypeEnv := ((∅ : TypeEnv).insert "f"
      (.all "a" (.arrow (.var "a") (.list (.var "b"))))).insert "y" (.var "c")
    let t : Term := .letIn "g" (.var "f") (.app (.var "g") (.var "y"))
    ∃ r, inferType 100 env t = .ok r ∧
      HasType ((env.apply r.subst).merge r.free) t (.list (.var "b")) := by
  intro env t
  have hrun : (fun p : Except TypeError Typing × NameSupply =>
      (p.1.toOption.map (·.type), p.2.count)) ((Infer.typing 100 env t).run (.forTypes "" 0)) =
        (some (.list (.var "b")), 5) := by cbv
  have hdrawn : Infer.drawn 100 env t = 5 := congrArg Prod.snd hrun
  have htype : (inferType 100 env t).toOption.map (·.type) = some (.list (.var "b")) :=
    congrArg Prod.fst hrun
  -- the environment binds two names, to `c` and to the scheme of `f`
  have hcases : ∀ {x : String} {σ : Ty}, env[x]? = some σ →
      σ = .var "c" ∨ σ = .all "a" (.arrow (.var "a") (.list (.var "b"))) := by
    intro x σ hx
    rcases TypeEnv.getElem?_insert_some hx with ⟨-, rfl⟩ | ⟨-, hx⟩
    · exact .inl rfl
    · rcases TypeEnv.getElem?_insert_some hx with ⟨-, rfl⟩ | ⟨-, hx⟩
      · exact .inr rfl
      · exact absurd hx (by simp)
  have henv : env.Hygienic := by
    refine ⟨fun hx => ?_, fun hx v hv => ne_numbered ?_, fun hx hy v hv => ?_⟩
    · rcases hcases hx with rfl | rfl <;> simp [Ty.Prenex, Ty.splitAll, Ty.Mono]
    · rcases hcases hx with rfl | rfl <;> simp [Ty.freeVars, Ty.splitAll] at hv <;>
        rcases hv with rfl | rfl <;> decide
    · rcases hcases hx with rfl | rfl <;> rcases hcases hy with rfl | rfl <;>
        simp_all [Ty.freeVars, Ty.splitAll]
  cases h : inferType 100 env t with
  | error e =>
    rw [h] at htype
    exact absurd htype (by simp [Except.toOption])
  | ok r =>
    rw [h] at htype
    have htype : r.type = .list (.var "b") := Option.some.inj htype
    exact ⟨r, rfl, htype ▸ inferType_sound henv (by omega) h⟩

end MiniML
