/-
  MiniML/Proofs/Typing/Calls.lean
  ===============================
  **The calls of inference** — inference calls itself for the parts of a term, each in an
  environment of its own and with the supply that is left (`Infer.Call.Makes`).  What holds
  of the call for a term and passes from a call to those that it makes holds of every
  call of a run.

  Passed on is that the environment meets no name that is still to be issued
  (`Makes.supplied`), and that the call succeeds (`Makes.succeeds`).  So the substitution
  that a call returns is acyclic, and the type with it is resolved already
  (`infer_resolved`).
-/
import Mathlib.Logic.Relation
import MiniML.Proofs.Ty.Resolution
import MiniML.Proofs.Typing.Soundness

namespace MiniML.Infer

open Subst

/-! ### Calls -/

/-- What inference is called with. -/
structure Call where
  env : TypeEnv
  term : Term
  supply : NameSupply

/-- The form has one part that is inferred first, in the environment of the whole. -/
inductive Operand : Term → Term → Prop where
  | letIn {x v b} : Operand (.letIn x v b) v
  | head {l} : Operand (.head l) l
  | tail {l} : Operand (.tail l) l
  | ifZero {c t e} : Operand (.ifZero c t e) c
  | ifEmpty {c t e} : Operand (.ifEmpty c t e) c
  | fix {f} : Operand (.fix f) f
  | mkRef {e} : Operand (.mkRef e) e
  | deref {e} : Operand (.deref e) e

/-- The form has two parts that are inferred one after the other. -/
inductive Pair : Term → Term → Term → Prop where
  | app {f a} : Pair (.app f a) f a
  | add {l r} : Pair (.add l r) l r
  | sub {l r} : Pair (.sub l r) l r
  | cons {h t} : Pair (.cons h t) h t
  | assign {r v} : Pair (.assign r v) r v

/-- The form is a conditional with two branches; its condition has the required type if
    `θ` holds. -/
inductive Tested (fuel : Nat) (env : TypeEnv) (s : NameSupply) :
    Term → Term → Term → Subst → NameSupply → Prop where
  | ifZero {c a b : Term} {τ : Ty} {θ θ' : Subst} {s₁ : NameSupply}
      (hrun : infer fuel env c s = (.ok (τ, θ), s₁)) (hunify : unify fuel τ .int θ = .ok θ') :
      Tested fuel env s (.ifZero c a b) a b θ' s₁
  | ifEmpty {c a b : Term} {τ : Ty} {θ θ' : Subst} {s₁ : NameSupply}
      (hrun : infer fuel env c s = (.ok (τ, θ), s₁))
      (hunify : unify fuel τ (.list (.var s₁.fresh.1)) θ = .ok θ') :
      Tested fuel env s (.ifEmpty c a b) a b θ' s₁.fresh.2

/-- The first call makes the second one, directly. -/
inductive Call.Makes (fuel : Nat) : Call → Call → Prop where
  | operand {env t o s} (h : Operand t o) : Makes fuel ⟨env, t, s⟩ ⟨env, o, s⟩
  | left {env t l r s} (h : Pair t l r) : Makes fuel ⟨env, t, s⟩ ⟨env, l, s⟩
  | right {env t l r s τ θ s₁} (h : Pair t l r) (hrun : infer fuel env l s = (.ok (τ, θ), s₁)) :
      Makes fuel ⟨env, t, s⟩ ⟨env.apply θ, r, s₁⟩
  | body {env x b} {s : NameSupply} :
      Makes fuel ⟨env, .abs x b, s⟩ ⟨env.insert x (.var s.fresh.1), b, s.fresh.2⟩
  | letBody {env x v b s τ θ s₁} (hrun : infer fuel env v s = (.ok (τ, θ), s₁)) :
      Makes fuel ⟨env, .letIn x v b, s⟩
        ⟨(env.apply θ).insert x (letScheme (env.apply θ) v (θ.apply τ)), b, s₁⟩
  | thenBranch {env t a b s θ s₁} (h : Tested fuel env s t a b θ s₁) :
      Makes fuel ⟨env, t, s⟩ ⟨env.apply θ, a, s₁⟩
  | elseBranch {env t a b s θ s₁ τ θ₂ s₂} (h : Tested fuel env s t a b θ s₁)
      (hrun : infer fuel (env.apply θ) a s₁ = (.ok (τ, θ₂), s₂)) :
      Makes fuel ⟨env, t, s⟩ ⟨env.apply (θ.compose θ₂), b, s₂⟩

/-- The calls of a run: the first one, and those that they make. -/
def Call.Leads (fuel : Nat) : Call → Call → Prop := Relation.ReflTransGen (Call.Makes fuel)

/-- The call succeeds, with a supply that leads to `s'`. -/
def Call.Returns (fuel : Nat) (c : Call) (s' : NameSupply) : Prop :=
  ∃ r s₁, infer fuel c.env c.term c.supply = (.ok r, s₁) ∧ s₁.Before s'

/-! ### Calls that succeed -/

section Success

variable {α β : Type} {fuel : Nat} {env : TypeEnv} {s s' : NameSupply} {t : Term}

/-- The first part of a sequence that succeeds. -/
theorem starts {m : InferM α} {f : α → InferM β} {b : β} (h : (m >>= f) s = (.ok b, s'))
    (hf : ∀ a, Grows (f a)) :
    ∃ a s₁, m s = (.ok a, s₁) ∧ f a s₁ = (.ok b, s') ∧ s₁.Before s' := by
  obtain ⟨a, s₁, hm, h⟩ := run_bind_ok h
  have hs := hf a s₁
  rw [h] at hs
  exact ⟨a, s₁, hm, h, hs⟩

/-- Whatever comes after it, the first part leaves a supply that leads to the end. -/
theorem first_ok {m : InferM α} {f : α → InferM β} {b : β} (h : (m >>= f) s = (.ok b, s'))
    (hf : ∀ a, Grows (f a)) : ∃ a s₁, m s = (.ok a, s₁) ∧ s₁.Before s' := by
  obtain ⟨a, s₁, hm, -, hs⟩ := starts h hf
  exact ⟨a, s₁, hm, hs⟩

theorem Operand.returns {o : Term} {r : Ty × Subst} (ho : Operand t o)
    (h : infer fuel env t s = (.ok r, s')) : Call.Returns fuel ⟨env, o, s⟩ s' := by
  have heliminate : ∀ {shape result : Ty → Ty},
      eliminate fuel t env (infer fuel · o) shape result s = (.ok r, s') →
        Call.Returns fuel ⟨env, o, s⟩ s' := by
    intro shape result h
    exact first_ok h fun _ => grows_fresh.bind fun _ => grows_unifyAt.bind fun _ => grows_pure _
  cases ho with
  | head | tail | fix | deref =>
    rw [infer] at h
    exact heliminate h
  | letIn =>
    rw [infer] at h
    exact first_ok h fun _ => (infer_grows fuel _ _).bind fun _ => grows_pure _
  | mkRef =>
    rw [infer] at h
    exact first_ok h fun _ => grows_pure _
  | ifZero =>
    rw [infer] at h
    exact first_ok h fun _ => grows_unifyAt.bind fun _ =>
      grows_branches (infer_grows fuel _) (infer_grows fuel _) fuel _ env _
  | ifEmpty =>
    rw [infer] at h
    exact first_ok h fun _ => grows_fresh.bind fun _ => grows_unifyAt.bind fun _ =>
      grows_branches (infer_grows fuel _) (infer_grows fuel _) fuel _ env _

/-- A form with two parts starts with both of them. -/
theorem Pair.both_ok {l r : Term} {p : Ty × Subst} (hp : Pair t l r)
    (h : infer fuel env t s = (.ok p, s')) :
    ∃ q s₂, both env (infer fuel · l) (infer fuel · r) s = (.ok q, s₂) ∧ s₂.Before s' := by
  cases hp with
  | add | sub =>
    rw [infer, arith] at h
    exact first_ok h fun _ => grows_unifyAt.bind fun _ => grows_unifyAt.bind fun _ => grows_pure _
  | app =>
    rw [infer] at h
    exact first_ok h fun _ => grows_fresh.bind fun _ => grows_unifyAt.bind fun _ => grows_pure _
  | cons | assign =>
    rw [infer] at h
    exact first_ok h fun _ => grows_unifyAt.bind fun _ => grows_pure _

theorem Pair.returns {l r : Term} {p : Ty × Subst} (hp : Pair t l r)
    (h : infer fuel env t s = (.ok p, s')) :
    ∃ a s₁, infer fuel env l s = (.ok a, s₁) ∧ s₁.Before s' ∧
      Call.Returns fuel ⟨env.apply a.2, r, s₁⟩ s' := by
  obtain ⟨q, s₂, hboth, hs₂⟩ := hp.both_ok h
  obtain ⟨a, s₁, hl, hrest, hs₁⟩ := starts hboth fun _ => (infer_grows fuel r _).bind fun _ =>
    grows_pure _
  obtain ⟨b, s₃, hr, hpure⟩ := run_bind_ok hrest
  obtain ⟨-, rfl⟩ : q = (a, b) ∧ s₂ = s₃ := by
    cases hpure
    exact ⟨rfl, rfl⟩
  exact ⟨a, s₁, hl, hs₁.trans hs₂, b, s₂, hr, hs₂⟩

/-- Behind its condition a conditional has its branches. -/
theorem Tested.run_eq {a b : Term} {θ : Subst} {s₁ : NameSupply}
    (ht : Tested fuel env s t a b θ s₁) :
    infer fuel env t s = branches fuel t env θ (infer fuel · a) (infer fuel · b) s₁ := by
  cases ht with
  | ifZero hrun hunify =>
    simp only [infer, run_bind, hrun, run_unifyAt, hunify, Except.mapError]
  | ifEmpty hrun hunify =>
    simp only [infer, run_bind, hrun, run_fresh, run_unifyAt, hunify, Except.mapError]

theorem Tested.returns {a b : Term} {θ : Subst} {s₁ : NameSupply} {p : Ty × Subst}
    (ht : Tested fuel env s t a b θ s₁) (h : infer fuel env t s = (.ok p, s')) :
    ∃ q s₂, infer fuel (env.apply θ) a s₁ = (.ok q, s₂) ∧ s₂.Before s' ∧
      Call.Returns fuel ⟨env.apply (θ.compose q.2), b, s₂⟩ s' := by
  rw [ht.run_eq] at h
  obtain ⟨q, s₂, hthen, hrest, hs₂⟩ := starts h fun _ =>
    (infer_grows fuel b _).bind fun _ => grows_unifyAt.bind fun _ => grows_pure _
  exact ⟨q, s₂, hthen, hs₂, first_ok hrest fun _ => grows_unifyAt.bind fun _ => grows_pure _⟩

end Success

/-- A call that succeeds makes none that fails. -/
theorem Call.Makes.succeeds {fuel : Nat} {c c' : Call} {s' : NameSupply} (h : c.Makes fuel c')
    (hc : c.Returns fuel s') : c'.Returns fuel s' := by
  obtain ⟨p, s₀, hrun, hs₀⟩ := hc
  -- the count grows with every part of the run, so it suffices that the part has an answer
  suffices hret : c'.Returns fuel s₀ by
    obtain ⟨q, s₁, hq, hs₁⟩ := hret
    exact ⟨q, s₁, hq, hs₁.trans hs₀⟩
  cases h with
  | operand ho => exact ho.returns hrun
  | left hp =>
    obtain ⟨a, s₁, hl, hs₁, -⟩ := hp.returns hrun
    exact ⟨a, s₁, hl, hs₁⟩
  | right hp hl =>
    obtain ⟨a, s₁, hl', -, hr⟩ := hp.returns hrun
    cases hl.symm.trans hl'
    exact hr
  | body =>
    rw [infer] at hrun
    obtain ⟨v, s₁, hfresh, hrun⟩ := run_bind_ok hrun
    obtain ⟨rfl, rfl⟩ := run_fresh_ok hfresh
    exact first_ok hrun fun _ => grows_pure _
  | letBody hv =>
    rw [infer, run_bind, hv] at hrun
    exact first_ok hrun fun _ => grows_pure _
  | thenBranch ht =>
    obtain ⟨q, s₂, hthen, hs₂, -⟩ := ht.returns hrun
    exact ⟨q, s₂, hthen, hs₂⟩
  | elseBranch ht hthen =>
    obtain ⟨q, s₂, hthen', -, helse⟩ := ht.returns hrun
    cases hthen.symm.trans hthen'
    exact helse

/-! ### Environments of calls -/

section Environments

variable {fuel : Nat} {limit : Int}

/-- What a condition forces. -/
theorem Tested.forces {env : TypeEnv} {s s₁ : NameSupply} {t a b : Term} {θ : Subst}
    (ht : Tested fuel env s t a b θ s₁) (hr : env.Supplied s limit) (hl : s₁.count ≤ limit) :
    Forces env s θ s₁ := by
  cases ht with
  | ifZero hrun hunify =>
    have hc := infer_sound fuel limit _ hr hrun hl
    have hans := unify_answers fuel hc.forces.regular hc.named.1 (b := .int) trivial
    rw [hunify] at hans
    exact hc.forces.unify hc.named (b := .int) ⟨trivial, by simp⟩ hans
  | @ifEmpty _ _ _ _ _ _ s₁ hrun hunify =>
    have hs := NameSupply.before_fresh s₁
    have hc := infer_sound fuel limit _ hr hrun (Int.le_trans hs.count hl)
    have helem := shape_list.named hc.forces.named_fresh
    have hans := unify_answers fuel hc.forces.regular hc.named.1 helem.1
    rw [hunify] at hans
    exact (hc.forces.later hs).unify (hc.named.later hs) helem hans

/-- The environment of a call meets no name that is still to be issued, if that of the call
    that makes it does not. -/
theorem Call.Makes.supplied {c c' : Call} (h : c.Makes fuel c')
    (hc : c.env.Supplied c.supply limit) (hl : c'.supply.count ≤ limit) :
    c'.env.Supplied c'.supply limit := by
  cases h with
  | operand | left => exact hc
  | right _ hrun => exact (infer_sound fuel limit _ hc hrun hl).forces.supplied hc
  | body => exact TypeEnv.Supplied.insert_fresh hc _
  | letBody hrun =>
    have ha := infer_sound fuel limit _ hc hrun hl
    exact supplied_letScheme hc ha.forces ha.named _
  | thenBranch ht => exact (ht.forces hc hl).supplied hc
  | elseBranch ht hrun =>
    have hl₁ := Int.le_trans (before_of_infer hrun).count hl
    have hθ := ht.forces hc hl₁
    have ha := infer_sound fuel limit _ (hθ.supplied hc) hrun hl
    exact (ha.next hθ hc hl).forces.supplied hc

/-- Both hold along a run, by induction on the calls that lead to one. -/
theorem Call.Leads.sound {c c' : Call} {s' : NameSupply} (h : c.Leads fuel c')
    (hc : c.env.Supplied c.supply limit) (hret : c.Returns fuel s') (hl : s'.count ≤ limit) :
    c'.env.Supplied c'.supply limit ∧ c'.Returns fuel s' := by
  induction h with
  | refl => exact ⟨hc, hret⟩
  | tail _ hmakes ih =>
    obtain ⟨hsupplied, hreturns⟩ := ih
    have hnext := hmakes.succeeds hreturns
    refine ⟨hmakes.supplied hsupplied ?_, hnext⟩
    obtain ⟨q, s₁, hrun, hs₁⟩ := hnext
    exact Int.le_trans (Int.le_trans (before_of_infer hrun).count hs₁.count) hl

end Environments

/-! ### Returned types are resolved -/

section Resolved

variable {fuel : Nat} {limit : Int} {env : TypeEnv} {s s' : NameSupply} {t : Term} {τ : Ty}
  {θ : Subst}

/-- A form that ends by resolving its type. -/
theorem Answer.resolved {σ : Ty} (ha : Answer limit env s t τ θ s') (h : τ = θ.apply σ) :
    Unify.Resolved θ τ := by
  have hσ : σ.Mono := mono_of_mono_apply (h ▸ ha.named.1)
  exact h ▸ Unify.resolved_apply ha.forces.regular hσ

theorem eliminate_apply {whole : Term} {operand : Part} {shape result : Ty → Ty}
    (h : eliminate fuel whole env operand shape result s = (.ok (τ, θ), s')) :
    ∃ σ, τ = θ.apply σ := by
  obtain ⟨o, s₁, -, h⟩ := run_bind_ok h
  obtain ⟨v, s₂, -, h⟩ := run_bind_ok h
  obtain ⟨θ₂, s₃, -, h⟩ := run_bind_ok h
  obtain ⟨rfl, rfl, -⟩ := run_pure_ok h
  exact ⟨result v, rfl⟩

theorem branches_apply {whole : Term} {first second : Part} {θ₀ : Subst}
    (h : branches fuel whole env θ₀ first second s = (.ok (τ, θ), s')) : ∃ σ, τ = θ.apply σ := by
  obtain ⟨l, s₁, -, h⟩ := run_bind_ok h
  obtain ⟨r, s₂, -, h⟩ := run_bind_ok h
  obtain ⟨θ₂, s₃, -, h⟩ := run_bind_ok h
  obtain ⟨rfl, rfl, -⟩ := run_pure_ok h
  exact ⟨l.1, rfl⟩

theorem arith_int {whole : Term} {left right : Part}
    (h : arith fuel whole env left right s = (.ok (τ, θ), s')) : τ = .int := by
  obtain ⟨p, s₁, -, h⟩ := run_bind_ok h
  obtain ⟨θ₁, s₂, -, h⟩ := run_bind_ok h
  obtain ⟨θ₂, s₃, -, h⟩ := run_bind_ok h
  exact (run_pure_ok h).1

/-- **Nothing that a call binds is left in the type that it returns**, by induction on the
    term. -/
theorem infer_resolved (hr : env.Supplied s limit) (h : infer fuel env t s = (.ok (τ, θ), s'))
    (hl : s'.count ≤ limit) : Unify.Resolved θ τ := by
  induction t generalizing env s τ θ s' with
  | var x =>
    rw [infer] at h
    obtain ⟨τ₁, s₁, -, h⟩ := run_bind_ok h
    obtain ⟨-, rfl, -⟩ := run_pure_ok h
    exact fun v _ => by simp
  | int | unit =>
    obtain ⟨rfl, -, -⟩ := run_pure_ok h
    exact fun v hv => absurd hv (by simp)
  | nil | region =>
    rw [infer] at h
    obtain ⟨v, s₁, -, h⟩ := run_bind_ok h
    obtain ⟨-, rfl, -⟩ := run_pure_ok h
    exact fun v _ => by simp
  | abs x b ih =>
    have ha := infer_sound fuel limit _ hr h hl
    rw [infer] at h
    obtain ⟨v, s₁, hfresh, h⟩ := run_bind_ok h
    obtain ⟨rfl, rfl⟩ := run_fresh_ok hfresh
    obtain ⟨⟨τ₁, θ₁⟩, s₂, hbody, h⟩ := run_bind_ok h
    obtain ⟨rfl, rfl, rfl⟩ := run_pure_ok h
    have hb := hr.insert_fresh x
    have hresult := ih hb hbody hl
    have harg := Unify.resolved_apply ha.forces.regular (t := .var s.fresh.1) trivial
    exact fun v hv => (Ty.mem_freeVars_arrow.mp hv).elim (harg v) (hresult v)
  | app f a =>
    have ha := infer_sound fuel limit _ hr h hl
    rw [infer] at h
    obtain ⟨p, s₁, -, h⟩ := run_bind_ok h
    obtain ⟨v, s₂, -, h⟩ := run_bind_ok h
    obtain ⟨θ₁, s₃, -, h⟩ := run_bind_ok h
    obtain ⟨rfl, rfl, -⟩ := run_pure_ok h
    exact ha.resolved rfl
  | letIn x v b ihv ihb =>
    rw [infer] at h
    obtain ⟨⟨τ₁, θ₁⟩, s₁, hvalue, h⟩ := run_bind_ok h
    obtain ⟨⟨τ₂, θ₂⟩, s₂, hbody, h⟩ := run_bind_ok h
    obtain ⟨rfl, rfl, rfl⟩ := run_pure_ok h
    have hl₁ := Int.le_trans (before_of_infer hbody).count hl
    have hv := infer_sound fuel limit v hr hvalue hl₁
    have henv := supplied_letScheme (v := v) hr hv.forces hv.named x
    have hb := infer_sound fuel limit b henv hbody hl
    -- the body knows nothing that the value bound
    have hcarries := carries_letScheme (v := v) hr hv.forces hv.named x
    intro u hu
    rw [getElem?_compose_of_unbound
      (hv.forces.known_next hr hcarries hb.forces.before hl (hb.named.2 u hu)).2]
    exact ihb henv hbody hl u hu
  | add | sub =>
    obtain rfl := arith_int h
    exact fun v hv => absurd hv (by simp)
  | cons =>
    have ha := infer_sound fuel limit _ hr h hl
    rw [infer] at h
    obtain ⟨p, s₁, -, h⟩ := run_bind_ok h
    obtain ⟨θ₁, s₂, -, h⟩ := run_bind_ok h
    obtain ⟨rfl, rfl, -⟩ := run_pure_ok h
    exact ha.resolved rfl
  | head | tail | fix | deref =>
    have ha := infer_sound fuel limit _ hr h hl
    obtain ⟨σ, hσ⟩ := eliminate_apply h
    exact ha.resolved hσ
  | ifZero =>
    have ha := infer_sound fuel limit _ hr h hl
    rw [infer] at h
    obtain ⟨c, s₁, -, h⟩ := run_bind_ok h
    obtain ⟨θ₁, s₂, -, h⟩ := run_bind_ok h
    obtain ⟨σ, hσ⟩ := branches_apply h
    exact ha.resolved hσ
  | ifEmpty =>
    have ha := infer_sound fuel limit _ hr h hl
    rw [infer] at h
    obtain ⟨c, s₁, -, h⟩ := run_bind_ok h
    obtain ⟨v, s₂, -, h⟩ := run_bind_ok h
    obtain ⟨θ₁, s₃, -, h⟩ := run_bind_ok h
    obtain ⟨σ, hσ⟩ := branches_apply h
    exact ha.resolved hσ
  | mkRef e ih =>
    rw [infer] at h
    obtain ⟨⟨τ₁, θ₁⟩, s₁, he, h⟩ := run_bind_ok h
    obtain ⟨rfl, rfl, rfl⟩ := run_pure_ok h
    exact fun v hv => ih hr he hl v hv
  | assign =>
    rw [infer] at h
    obtain ⟨p, s₁, -, h⟩ := run_bind_ok h
    obtain ⟨θ₁, s₂, -, h⟩ := run_bind_ok h
    obtain ⟨rfl, -, -⟩ := run_pure_ok h
    exact fun v hv => absurd hv (by simp)

/-- Every call of a run that succeeds returns a solved substitution and a type that is
    resolved by it. -/
theorem Call.Leads.solved {c c' : Call} (h : c.Leads fuel c') (hc : c.env.Supplied c.supply limit)
    (hret : c.Returns fuel s') (hl : s'.count ≤ limit) :
    ∃ τ θ s₁, infer fuel c'.env c'.term c'.supply = (.ok (τ, θ), s₁) ∧ θ.Solved ∧
      ∀ v ∈ τ.freeVars, θ[v]? = none := by
  obtain ⟨hsupplied, ⟨⟨τ, θ⟩, s₁, hrun, hs₁⟩⟩ := h.sound hc hret hl
  have hl₁ := Int.le_trans hs₁.count hl
  have ha := infer_sound fuel limit _ hsupplied hrun hl₁
  exact ⟨τ, θ, s₁, hrun, ha.forces.regular.solved, infer_resolved hsupplied hrun hl₁⟩

/-- The types of the free variables are the types of their seeds, resolved. -/
theorem getElem?_free_some {r : Typing} (h : typing fuel env t s = (.ok r, s')) {x : String}
    {σ : Ty} (hx : r.free[x]? = some σ) : ∃ v, σ = r.subst.apply (.var v) := by
  obtain ⟨number, -, -, hget⟩ := seeds_eq t.freeVars.toList s
  simp only [typing] at h
  split at h
  · cases h
  · cases h
    obtain ⟨ρ, hρ, rfl⟩ := TypeEnv.getElem?_apply_some hx
    rw [Std.ExtTreeMap.getElem?_filter', hget x] at hρ
    split at hρ
    · simp only [Option.filter_eq_some_iff, Option.some.injEq] at hρ
      exact ⟨_, by rw [← hρ.1]⟩
    · simp at hρ

end Resolved

end MiniML.Infer

namespace MiniML

/-- The call that a typing starts with: the free variables of the term have fresh types,
    unless the environment binds them. -/
def Infer.Call.start (env : TypeEnv) (t : Term) : Infer.Call :=
  let seeded := Infer.seeds t.freeVars.toList (.forTypes "" 0)
  ⟨seeded.1.merge env, t, seeded.2⟩

/-- **Inference builds solved substitutions.**  If the type of a term is inferred in a
    hygienic environment, the substitution has no cycles, its rule for cycles is never
    used, resolving once is enough, and nothing that it binds is left in the types that
    are returned.  The same holds of every call that is made on the way. -/
theorem inferType_solved {fuel : Nat} {env : TypeEnv} {t : Term} {r : Typing}
    (henv : env.Hygienic) (hdrawn : Infer.drawn fuel env t ≤ 2 ^ 63)
    (h : inferType fuel env t = .ok r) :
    r.subst.Solved ∧ (∀ v ∈ r.type.freeVars, r.subst[v]? = none) ∧
      (∀ (x : String) (σ : Ty), r.free[x]? = some σ → ∀ v ∈ σ.freeVars, r.subst[v]? = none) ∧
        ∀ c, (Infer.Call.start env t).Leads fuel c →
          ∃ τ θ s', infer fuel c.env c.term c.supply = (.ok (τ, θ), s') ∧ θ.Solved ∧
            ∀ v ∈ τ.freeVars, θ[v]? = none := by
  have hr := (henv.ready (Int.le_refl _)).toSupplied
  have hrun : Infer.typing fuel env t (.forTypes "" 0) =
      (.ok r, (Infer.typing fuel env t (.forTypes "" 0)).2) := Prod.ext h rfl
  obtain ⟨hforces, -, htype⟩ := Infer.typing_named hr hrun hdrawn
  obtain ⟨τ, hstart, -, -⟩ := Infer.run_typing_ok hrun
  refine ⟨hforces.regular.solved, htype, fun x σ hx => ?_, fun c hc => ?_⟩
  · obtain ⟨v, rfl⟩ := Infer.getElem?_free_some hrun hx
    exact Unify.resolved_apply hforces.regular (t := .var v) trivial
  · exact hc.solved (Infer.supplied_seeds hr t.freeVars.toList) ⟨_, _, hstart, .refl _⟩ hdrawn

/-- An environment with one entry is hygienic if its scheme is. -/
theorem TypeEnv.hygienic_singleton {x : String} {σ : Ty} (hσ : σ.Prenex)
    (hnames : ∀ v, v ∈ σ.freeVars ∨ v ∈ σ.splitAll.1 → v.toList.head? ≠ some 'T')
    (hapart : ∀ v ∈ σ.freeVars, v ∉ σ.splitAll.1) : Hygienic ((∅ : TypeEnv).insert x σ) := by
  have hentry : ∀ {y : String} {ρ : Ty}, ((∅ : TypeEnv).insert x σ)[y]? = some ρ → ρ = σ := by
    intro y ρ hy
    rcases getElem?_insert_some hy with ⟨-, hρ⟩ | ⟨-, hy⟩
    · exact hρ
    · exact absurd hy (by simp)
  refine ⟨fun hy => ?_, fun hy v hv => ?_, fun hy hz v hv => ?_⟩
  · exact hentry hy ▸ hσ
  · rw [hentry hy] at hv
    exact ne_numbered (hnames v hv)
  · rw [hentry hy] at hv
    rw [hentry hz]
    exact hapart v hv

/-- `f z`, where `f` makes lists of an unknown type of whatever it is applied to and `z`
    is not bound.  One of the calls is the one for `f`. -/
theorem inferType_solved_app :
    let env : TypeEnv := (∅ : TypeEnv).insert "f" (.all "a" (.arrow (.var "a") (.list (.var "b"))))
    let t : Term := .app (.var "f") (.var "z")
    let start := Infer.Call.start env t
    (∃ r, inferType 100 env t = .ok r ∧ r.subst.Solved ∧ r.subst.apply r.type = r.type ∧
      r.free["z"]? = some (.var "T1") ∧ r.subst["T1"]? = none) ∧
    ∃ τ θ s', infer 100 start.env (.var "f") start.supply = (.ok (τ, θ), s') ∧ θ.Solved := by
  intro env t start
  have henv : env.Hygienic := by
    refine TypeEnv.hygienic_singleton ⟨trivial, trivial⟩ (fun v hv => ?_) fun v hv => ?_
    · simp [Ty.freeVars, Ty.splitAll] at hv
      rcases hv with rfl | rfl <;> decide
    · revert hv v
      decide
  have hrun : (fun p : Except TypeError Typing × NameSupply =>
      (p.1.toOption.bind (·.free["z"]?), p.2.count)) ((Infer.typing 100 env t).run (.forTypes "" 0)) =
        (some (.var "T1"), 4) := by cbv
  have hdrawn : Infer.drawn 100 env t = 4 := congrArg Prod.snd hrun
  have hz : (inferType 100 env t).toOption.bind (·.free["z"]?) = some (.var "T1") :=
    congrArg Prod.fst hrun
  cases h : inferType 100 env t with
  | error e =>
    rw [h] at hz
    cases hz
  | ok r =>
    rw [h] at hz
    obtain ⟨hsolved, htype, hfree, hcalls⟩ := inferType_solved henv (by omega) h
    refine ⟨⟨r, rfl, hsolved, Subst.apply_eq_self htype, hz, ?_⟩, ?_⟩
    · exact hfree "z" _ hz "T1" (by simp)
    · obtain ⟨τ, θ, s', hf, hθ, -⟩ := hcalls ⟨start.env, .var "f", start.supply⟩
        (.single (.left .app))
      exact ⟨τ, θ, s', hf, hθ⟩

end MiniML
