/-
  MiniML/Proofs/Typing/Quantifiers.lean
  =====================================
  **Quantifiers stay outermost** — types allow a quantifier in any position, and
  unification rejects every quantified type.  Inference never gets that far: an
  environment of prenex schemes stays one in every call of a run, since instantiation
  takes all quantifiers away, generalisation puts them back in front, and substitutions
  bind monotypes (`Call.Leads.prenex`); so all that is unified are monotypes
  (`Call.Unifies.mono`).

  The calls of a run are those of `Call.Makes`; `Call.Unifies` lists the unifications that
  a call makes itself.  They are all there are: a run that fails does so in one of them, or
  at an unbound variable (`infer_error`).

  No freshness is needed.  A quantifier may capture what is put in its scope, and names may
  repeat; the types are wrong then, but they are no less prenex.
-/
import MiniML.Proofs.Ty.Quantifiers
import MiniML.Proofs.Typing.Calls

namespace MiniML

open Subst

namespace Infer

/-! ### The unifications of a call -/

/-- The form computes with two integers. -/
inductive Arithmetic : Term → Term → Term → Prop where
  | add {l r} : Arithmetic (.add l r) l r
  | sub {l r} : Arithmetic (.sub l r) l r

/-- The form requires that its operand has the type `shape v`, for a fresh `v`. -/
inductive Eliminates : Term → Term → (Ty → Ty) → Prop where
  | head {l} : Eliminates (.head l) l .list
  | tail {l} : Eliminates (.tail l) l .list
  | fix {f} : Eliminates (.fix f) f fun v => .arrow v v
  | deref {e} : Eliminates (.deref e) e .ref

/-- The call unifies the two types under the substitution, directly. -/
inductive Call.Unifies (fuel : Nat) : Call → Ty → Ty → Subst → Prop where
  | app {env f a s l r s'}
      (hrun : both env (infer fuel · f) (infer fuel · a) s = (.ok (l, r), s')) :
      Unifies fuel ⟨env, .app f a, s⟩ (r.2.apply l.1) (.arrow r.1 (.var s'.fresh.1))
        (l.2.compose r.2)
  | left {env t a b s l r s'} (h : Arithmetic t a b)
      (hrun : both env (infer fuel · a) (infer fuel · b) s = (.ok (l, r), s')) :
      Unifies fuel ⟨env, t, s⟩ l.1 .int (l.2.compose r.2)
  | right {env t a b s l r s' θ} (h : Arithmetic t a b)
      (hrun : both env (infer fuel · a) (infer fuel · b) s = (.ok (l, r), s'))
      (hunify : unify fuel l.1 .int (l.2.compose r.2) = .ok θ) :
      Unifies fuel ⟨env, t, s⟩ r.1 .int θ
  | cons {env a b s l r s'}
      (hrun : both env (infer fuel · a) (infer fuel · b) s = (.ok (l, r), s')) :
      Unifies fuel ⟨env, .cons a b, s⟩ r.1 (.list (r.2.apply l.1)) (l.2.compose r.2)
  | operand {env t o shape s τ θ s'} (h : Eliminates t o shape)
      (hrun : infer fuel env o s = (.ok (τ, θ), s')) :
      Unifies fuel ⟨env, t, s⟩ τ (shape (.var s'.fresh.1)) θ
  | ifZero {env c a b s τ θ s'} (hrun : infer fuel env c s = (.ok (τ, θ), s')) :
      Unifies fuel ⟨env, .ifZero c a b, s⟩ τ .int θ
  | ifEmpty {env c a b s τ θ s'} (hrun : infer fuel env c s = (.ok (τ, θ), s')) :
      Unifies fuel ⟨env, .ifEmpty c a b, s⟩ τ (.list (.var s'.fresh.1)) θ
  | branches {env t a b s θ s₁ l s₂ r s₃} (h : Tested fuel env s t a b θ s₁)
      (hthen : infer fuel (env.apply θ) a s₁ = (.ok l, s₂))
      (helse : infer fuel (env.apply (θ.compose l.2)) b s₂ = (.ok r, s₃)) :
      Unifies fuel ⟨env, t, s⟩ l.1 r.1 ((θ.compose l.2).compose r.2)
  | assign {env a b s l r s'}
      (hrun : both env (infer fuel · a) (infer fuel · b) s = (.ok (l, r), s')) :
      Unifies fuel ⟨env, .assign a b, s⟩ (r.2.apply l.1) (.ref r.1) (l.2.compose r.2)

theorem Arithmetic.pair {t l r : Term} (h : Arithmetic t l r) : Pair t l r := by
  cases h with
  | add => exact .add
  | sub => exact .sub

theorem Eliminates.operand {t o : Term} {shape : Ty → Ty} (h : Eliminates t o shape) :
    Operand t o := by
  cases h with
  | head => exact .head
  | tail => exact .tail
  | fix => exact .fix
  | deref => exact .deref

/-! ### Induction on calls -/

section Calls

variable {fuel : Nat}

theorem Call.Makes.size_lt {c c' : Call} (h : c.Makes fuel c') : c'.term.size < c.term.size := by
  cases h with
  | operand h =>
    cases h <;> simp only [Term.size] <;> omega
  | left h | right h _ =>
    cases h <;> simp only [Term.size] <;> omega
  | body | letBody =>
    simp only [Term.size]
    omega
  | thenBranch h | elseBranch h _ =>
    cases h <;> simp only [Term.size] <;> omega

/-- What passes from the calls that a call makes to the call itself holds of all. -/
theorem Call.induction (fuel : Nat) {P : Call → Prop}
    (step : ∀ c, (∀ c', c.Makes fuel c' → P c') → P c) (c : Call) : P c := by
  induction hn : c.term.size using Nat.strong_induction_on generalizing c with
  | _ n ih => exact step c fun c' hmakes => ih _ (hn ▸ hmakes.size_lt) c' rfl

end Calls

/-! ### Monotypes come back -/

section Mono

variable {fuel : Nat} {env : TypeEnv} {s s' : NameSupply} {t : Term} {c c' : Call}

/-- If the call succeeds, it returns a monotype and binds monotypes. -/
def Call.ReturnsMono (fuel : Nat) (c : Call) : Prop :=
  ∀ ⦃p : Ty × Subst⦄ ⦃s' : NameSupply⦄,
    infer fuel c.env c.term c.supply = (.ok p, s') → p.1.Mono ∧ p.2.BindsMono

/-- So do the calls that it makes, if their environments are prenex. -/
def Call.PartsMono (fuel : Nat) (c : Call) : Prop :=
  ∀ c', c.Makes fuel c' → c'.env.Prenex → c'.ReturnsMono fuel

theorem Pair.mono {a b : Term} {l r : Ty × Subst} (hp : Pair t a b) (henv : env.Prenex)
    (hparts : Call.PartsMono fuel ⟨env, t, s⟩)
    (h : both env (infer fuel · a) (infer fuel · b) s = (.ok (l, r), s')) :
    (l.1.Mono ∧ l.2.BindsMono) ∧ r.1.Mono ∧ r.2.BindsMono := by
  obtain ⟨p, s₁, hl, h⟩ := run_bind_ok h
  obtain ⟨q, s₂, hr, h⟩ := run_bind_ok h
  obtain ⟨rfl, rfl, -⟩ := run_pure_ok h
  have hleft := hparts _ (.left hp) henv hl
  exact ⟨hleft, hparts _ (.right hp hl) (henv.apply hleft.2) hr⟩

theorem Tested.bindsMono {a b : Term} {θ : Subst} (ht : Tested fuel env s t a b θ s')
    (henv : env.Prenex) (hparts : Call.PartsMono fuel ⟨env, t, s⟩) : θ.BindsMono := by
  cases ht with
  | ifZero hrun hunify =>
    obtain ⟨hτ, hθ⟩ := hparts _ (.operand .ifZero) henv hrun
    exact Unify.bindsMono_of_unify hunify hτ trivial hθ
  | ifEmpty hrun hunify =>
    obtain ⟨hτ, hθ⟩ := hparts _ (.operand .ifEmpty) henv hrun
    exact Unify.bindsMono_of_unify hunify hτ trivial hθ

/-- A call is made in an environment of schemes, if the parts before it returned
    monotypes. -/
theorem Call.Makes.prenex_of_parts (h : c.Makes fuel c') (hc : c.env.Prenex)
    (hparts : c.PartsMono fuel) : c'.env.Prenex := by
  cases h with
  | operand | left => exact hc
  | right hp hrun => exact hc.apply (hparts _ (.left hp) hc hrun).2
  | body => exact hc.insert_var _ _
  | letBody hrun =>
    obtain ⟨hτ, hθ⟩ := hparts _ (.operand .letIn) hc hrun
    exact (hc.apply hθ).insert _ (prenex_letScheme (hθ.mono_apply hτ))
  | thenBranch ht => exact hc.apply (ht.bindsMono hc hparts)
  | elseBranch ht hrun =>
    have hθ := ht.bindsMono hc hparts
    exact hc.apply (hθ.compose (hparts _ (.thenBranch ht) (hc.apply hθ) hrun).2)

/-- A call unifies monotypes, if its parts returned monotypes. -/
theorem Call.Unifies.mono_of_parts {a b : Ty} {θ : Subst} (h : c.Unifies fuel a b θ)
    (hc : c.env.Prenex) (hparts : c.PartsMono fuel) : a.Mono ∧ b.Mono ∧ θ.BindsMono := by
  cases h with
  | app hrun =>
    obtain ⟨⟨hl, hθ⟩, hr, hθ'⟩ := Pair.app.mono hc hparts hrun
    exact ⟨hθ'.mono_apply hl, ⟨hr, trivial⟩, hθ.compose hθ'⟩
  | left ht hrun =>
    obtain ⟨⟨hl, hθ⟩, -, hθ'⟩ := ht.pair.mono hc hparts hrun
    exact ⟨hl, trivial, hθ.compose hθ'⟩
  | right ht hrun hunify =>
    obtain ⟨⟨hl, hθ⟩, hr, hθ'⟩ := ht.pair.mono hc hparts hrun
    exact ⟨hr, trivial, Unify.bindsMono_of_unify hunify hl trivial (hθ.compose hθ')⟩
  | cons hrun =>
    obtain ⟨⟨hl, hθ⟩, hr, hθ'⟩ := Pair.cons.mono hc hparts hrun
    exact ⟨hr, hθ'.mono_apply hl, hθ.compose hθ'⟩
  | operand ht hrun =>
    obtain ⟨hτ, hθ⟩ := hparts _ (.operand ht.operand) hc hrun
    refine ⟨hτ, ?_, hθ⟩
    cases ht with
    | head | tail | deref => exact trivial
    | fix => exact ⟨trivial, trivial⟩
  | ifZero hrun =>
    obtain ⟨hτ, hθ⟩ := hparts _ (.operand .ifZero) hc hrun
    exact ⟨hτ, trivial, hθ⟩
  | ifEmpty hrun =>
    obtain ⟨hτ, hθ⟩ := hparts _ (.operand .ifEmpty) hc hrun
    exact ⟨hτ, trivial, hθ⟩
  | branches ht hthen helse =>
    have hθ := ht.bindsMono hc hparts
    obtain ⟨hl, hθ₂⟩ := hparts _ (.thenBranch ht) (hc.apply hθ) hthen
    obtain ⟨hr, hθ₃⟩ := hparts _ (.elseBranch ht hthen) (hc.apply (hθ.compose hθ₂)) helse
    exact ⟨hl, hr, (hθ.compose hθ₂).compose hθ₃⟩
  | assign hrun =>
    obtain ⟨⟨hl, hθ⟩, hr, hθ'⟩ := Pair.assign.mono hc hparts hrun
    exact ⟨hθ'.mono_apply hl, hr, hθ.compose hθ'⟩

/-- What a unification of the call answers. -/
theorem Call.Unifies.bindsMono {a b : Ty} {θ θ' : Subst} (h : c.Unifies fuel a b θ)
    (hc : c.env.Prenex) (hparts : c.PartsMono fuel) (hunify : unify fuel a b θ = .ok θ') :
    θ'.BindsMono := by
  obtain ⟨ha, hb, hθ⟩ := h.mono_of_parts hc hparts
  exact Unify.bindsMono_of_unify hunify ha hb hθ

/-! ### The forms, one by one -/

theorem Arithmetic.mono {a b : Term} {p : Ty × Subst} (ht : Arithmetic t a b)
    (henv : env.Prenex) (hparts : Call.PartsMono fuel ⟨env, t, s⟩)
    (h : arith fuel t env (infer fuel · a) (infer fuel · b) s = (.ok p, s')) :
    p.1.Mono ∧ p.2.BindsMono := by
  obtain ⟨⟨l, r⟩, s₁, hboth, h⟩ := run_bind_ok h
  obtain ⟨θ₁, s₂, hleft, h⟩ := run_bind_ok h
  obtain ⟨hl, -⟩ := run_unifyAt_ok hleft
  obtain ⟨θ₂, hr, rfl⟩ := run_last_unify_ok h
  exact ⟨trivial, (Call.Unifies.right ht hboth hl).bindsMono henv hparts hr⟩

theorem Eliminates.mono {o : Term} {shape result : Ty → Ty} {p : Ty × Subst}
    (ht : Eliminates t o shape) (henv : env.Prenex) (hparts : Call.PartsMono fuel ⟨env, t, s⟩)
    (h : eliminate fuel t env (infer fuel · o) shape result s = (.ok p, s'))
    (hresult : ∀ v, (result (.var v)).Mono) : p.1.Mono ∧ p.2.BindsMono := by
  obtain ⟨⟨τ₁, θ₁⟩, s₁, ho, h⟩ := run_bind_ok h
  obtain ⟨v, s₂, hfresh, h⟩ := run_bind_ok h
  obtain ⟨rfl, rfl⟩ := run_fresh_ok hfresh
  obtain ⟨θ₂, hu, rfl⟩ := run_last_unify_ok h
  have hθ := (Call.Unifies.operand ht ho).bindsMono henv hparts hu
  exact ⟨hθ.mono_apply (hresult _), hθ⟩

theorem Tested.mono {a b : Term} {p : Ty × Subst} {θ : Subst} {s₁ : NameSupply}
    (ht : Tested fuel env s t a b θ s₁) (henv : env.Prenex)
    (hparts : Call.PartsMono fuel ⟨env, t, s⟩) (h : infer fuel env t s = (.ok p, s')) :
    p.1.Mono ∧ p.2.BindsMono := by
  rw [ht.run_eq] at h
  obtain ⟨l, s₂, hthen, h⟩ := run_bind_ok h
  obtain ⟨r, s₃, helse, h⟩ := run_bind_ok h
  obtain ⟨θ₂, hu, rfl⟩ := run_last_unify_ok h
  have hunifies := Call.Unifies.branches ht hthen helse
  have hθ := hunifies.bindsMono henv hparts hu
  exact ⟨hθ.mono_apply (hunifies.mono_of_parts henv hparts).1, hθ⟩

/-- A call returns monotypes, if its parts do. -/
theorem Call.returnsMono_of_parts (hc : c.env.Prenex) (hparts : c.PartsMono fuel) :
    c.ReturnsMono fuel := by
  obtain ⟨env, t, s⟩ := c
  intro p s' h
  have hrun := h
  cases t with
  | var x =>
    rw [infer] at h
    obtain ⟨τ, s₁, hlookup, h⟩ := run_bind_ok h
    obtain ⟨σ, hσ, rfl, rfl⟩ := run_lookup_ok hlookup
    cases h
    exact ⟨Ty.mono_instantiate (hc hσ) s, bindsMono_empty⟩
  | int | unit =>
    cases h
    exact ⟨trivial, bindsMono_empty⟩
  | nil | region =>
    rw [infer] at h
    obtain ⟨v, s₁, hfresh, h⟩ := run_bind_ok h
    obtain ⟨rfl, rfl⟩ := run_fresh_ok hfresh
    cases h
    exact ⟨trivial, bindsMono_empty⟩
  | abs x b =>
    rw [infer] at h
    obtain ⟨v, s₁, hfresh, h⟩ := run_bind_ok h
    obtain ⟨rfl, rfl⟩ := run_fresh_ok hfresh
    obtain ⟨q, s₂, hbody, h⟩ := run_bind_ok h
    cases h
    obtain ⟨hτ, hθ⟩ := hparts _ .body (Call.Makes.body.prenex_of_parts hc hparts) hbody
    exact ⟨⟨hθ.mono_apply (t := .var _) trivial, hτ⟩, hθ⟩
  | app f a =>
    rw [infer] at h
    obtain ⟨⟨l, r⟩, s₁, hboth, h⟩ := run_bind_ok h
    obtain ⟨v, s₂, hfresh, h⟩ := run_bind_ok h
    obtain ⟨rfl, rfl⟩ := run_fresh_ok hfresh
    obtain ⟨θ, hu, rfl⟩ := run_last_unify_ok h
    have hθ := (Call.Unifies.app hboth).bindsMono hc hparts hu
    exact ⟨hθ.mono_apply (t := .var _) trivial, hθ⟩
  | letIn x v b =>
    rw [infer] at h
    obtain ⟨⟨τ₁, θ₁⟩, s₁, hvalue, h⟩ := run_bind_ok h
    obtain ⟨q, s₂, hbody, h⟩ := run_bind_ok h
    cases h
    have hmakes := Call.Makes.letBody (x := x) (b := b) hvalue
    obtain ⟨hτ₂, hθ₂⟩ := hparts _ hmakes (hmakes.prenex_of_parts hc hparts) hbody
    exact ⟨hτ₂, (hparts _ (.operand .letIn) hc hvalue).2.compose hθ₂⟩
  | add l r =>
    rw [infer] at h
    exact Arithmetic.add.mono hc hparts h
  | sub l r =>
    rw [infer] at h
    exact Arithmetic.sub.mono hc hparts h
  | cons a b =>
    rw [infer] at h
    obtain ⟨⟨l, r⟩, s₁, hboth, h⟩ := run_bind_ok h
    obtain ⟨θ, hu, rfl⟩ := run_last_unify_ok h
    have hunifies := Call.Unifies.cons hboth
    have hθ := hunifies.bindsMono hc hparts hu
    exact ⟨hθ.mono_apply (hunifies.mono_of_parts hc hparts).2.1, hθ⟩
  | head l =>
    rw [infer] at h
    exact Eliminates.head.mono hc hparts h fun _ => trivial
  | tail l =>
    rw [infer] at h
    exact Eliminates.tail.mono hc hparts h fun _ => trivial
  | fix f =>
    rw [infer] at h
    exact Eliminates.fix.mono hc hparts h fun _ => trivial
  | deref e =>
    rw [infer] at h
    exact Eliminates.deref.mono hc hparts h fun _ => trivial
  | ifZero e a b =>
    rw [infer] at h
    -- once the condition is tested, the run is that of the branches
    obtain ⟨q, s₁, hcond, h⟩ := run_bind_ok h
    obtain ⟨θ, s₂, hunify, -⟩ := run_bind_ok h
    exact (Tested.ifZero hcond (run_unifyAt_ok hunify).1).mono hc hparts hrun
  | ifEmpty e a b =>
    rw [infer] at h
    obtain ⟨q, s₁, hcond, h⟩ := run_bind_ok h
    obtain ⟨v, s₂, hfresh, h⟩ := run_bind_ok h
    obtain ⟨rfl, rfl⟩ := run_fresh_ok hfresh
    obtain ⟨θ, s₃, hunify, -⟩ := run_bind_ok h
    exact (Tested.ifEmpty hcond (run_unifyAt_ok hunify).1).mono hc hparts hrun
  | mkRef e =>
    rw [infer] at h
    obtain ⟨q, s₁, hcontent, h⟩ := run_bind_ok h
    cases h
    obtain ⟨hτ, hθ⟩ := hparts _ (.operand .mkRef) hc hcontent
    exact ⟨hτ, hθ⟩
  | assign a b =>
    rw [infer] at h
    obtain ⟨⟨l, r⟩, s₁, hboth, h⟩ := run_bind_ok h
    obtain ⟨θ, hu, rfl⟩ := run_last_unify_ok h
    exact ⟨trivial, (Call.Unifies.assign hboth).bindsMono hc hparts hu⟩

/-- **In an environment of schemes every call returns monotypes**, by induction on calls. -/
theorem Call.returnsMono (c : Call) (hc : c.env.Prenex) : c.ReturnsMono fuel := by
  revert hc
  refine Call.induction fuel (P := fun c => c.env.Prenex → c.ReturnsMono fuel) ?_ c
  exact fun c hparts hc => Call.returnsMono_of_parts hc hparts

theorem Call.Makes.prenex (h : c.Makes fuel c') (hc : c.env.Prenex) : c'.env.Prenex :=
  h.prenex_of_parts hc fun c'' _ => c''.returnsMono

theorem Call.Leads.prenex (h : c.Leads fuel c') (hc : c.env.Prenex) : c'.env.Prenex := by
  induction h with
  | refl => exact hc
  | tail _ hmakes ih => exact hmakes.prenex ih

theorem Call.Unifies.mono {a b : Ty} {θ : Subst} (h : c.Unifies fuel a b θ)
    (hc : c.env.Prenex) : a.Mono ∧ b.Mono ∧ θ.BindsMono :=
  h.mono_of_parts hc fun c' _ => c'.returnsMono

end Mono

/-! ### Where a run fails -/

section Failures

variable {fuel : Nat} {env : TypeEnv} {s s' : NameSupply} {t : Term} {e : TypeError}

/-- The call meets the fault itself: its variable is unbound, or a unification of its own
    fails. -/
inductive Call.Raises (fuel : Nat) : Call → TypeError → Prop where
  | unbound {env : TypeEnv} {x s} (h : env[x]? = none) :
      Raises fuel ⟨env, .var x, s⟩ ⟨.unbound x, .var x⟩
  | unify {c : Call} {a b θ fault} (h : c.Unifies fuel a b θ)
      (hunify : MiniML.unify fuel a b θ = .error fault) : Raises fuel c ⟨.unify fault, c.term⟩

/-- The call raises the fault, or makes a call that fails with it. -/
def Call.Fails (fuel : Nat) (c : Call) (e : TypeError) : Prop :=
  c.Raises fuel e ∨
    ∃ c' s', c.Makes fuel c' ∧ infer fuel c'.env c'.term c'.supply = (.error e, s')

theorem Call.Unifies.fails {a b : Ty} {θ : Subst} {s₁ : NameSupply}
    (h : Call.Unifies fuel ⟨env, t, s⟩ a b θ) (hrun : unifyAt fuel t a b θ s₁ = (.error e, s')) :
    Call.Fails fuel ⟨env, t, s⟩ e := by
  obtain ⟨fault, hunify, rfl⟩ := run_unifyAt_error hrun
  exact .inl (.unify h hunify)

theorem Pair.fails {a b : Term} (hp : Pair t a b)
    (h : both env (infer fuel · a) (infer fuel · b) s = (.error e, s')) :
    Call.Fails fuel ⟨env, t, s⟩ e := by
  rcases run_bind_error h with hl | ⟨l, s₁, hl, h⟩
  · exact .inr ⟨_, s', .left hp, hl⟩
  · exact .inr ⟨_, s', .right hp hl, run_pack_error h⟩

theorem Arithmetic.fails {a b : Term} (ht : Arithmetic t a b)
    (h : arith fuel t env (infer fuel · a) (infer fuel · b) s = (.error e, s')) :
    Call.Fails fuel ⟨env, t, s⟩ e := by
  rcases run_bind_error h with h | ⟨⟨l, r⟩, s₁, hboth, h⟩
  · exact ht.pair.fails h
  rcases run_bind_error h with h | ⟨θ, s₂, hl, h⟩
  · exact (Call.Unifies.left ht hboth).fails h
  · exact (Call.Unifies.right ht hboth (run_unifyAt_ok hl).1).fails (run_pack_error h)

theorem Eliminates.fails {o : Term} {shape result : Ty → Ty} (ht : Eliminates t o shape)
    (h : eliminate fuel t env (infer fuel · o) shape result s = (.error e, s')) :
    Call.Fails fuel ⟨env, t, s⟩ e := by
  rcases run_bind_error h with h | ⟨⟨τ, θ⟩, s₁, ho, h⟩
  · exact .inr ⟨_, s', .operand ht.operand, h⟩
  · exact (Call.Unifies.operand ht ho).fails (run_pack_error (run_fresh_error h))

theorem Tested.fails {a b : Term} {θ : Subst} {s₁ : NameSupply}
    (ht : Tested fuel env s t a b θ s₁) (h : infer fuel env t s = (.error e, s')) :
    Call.Fails fuel ⟨env, t, s⟩ e := by
  rw [ht.run_eq] at h
  rcases run_bind_error h with h | ⟨l, s₂, hthen, h⟩
  · exact .inr ⟨_, s', .thenBranch ht, h⟩
  rcases run_bind_error h with h | ⟨r, s₃, helse, h⟩
  · exact .inr ⟨_, s', .elseBranch ht hthen, h⟩
  · exact (Call.Unifies.branches ht hthen helse).fails (run_pack_error h)

/-- A call that fails meets the fault itself or makes a call that fails with it. -/
theorem Call.fails {c : Call} (h : infer fuel c.env c.term c.supply = (.error e, s')) :
    c.Fails fuel e := by
  -- the call that fails is the last one that the run has come to
  obtain ⟨env, t, s⟩ := c
  have hrun := h
  cases t with
  | var x =>
    rw [infer] at h
    obtain ⟨hx, rfl⟩ := run_lookup_error (run_pack_error h)
    exact .inl (.unbound hx)
  | int | unit => cases h
  | nil | region =>
    rw [infer] at h
    cases run_pack_error h
  | abs x b =>
    rw [infer] at h
    exact .inr ⟨_, s', .body, run_pack_error (run_fresh_error h)⟩
  | app f a =>
    rw [infer] at h
    rcases run_bind_error h with h | ⟨⟨l, r⟩, s₁, hboth, h⟩
    · exact Pair.app.fails h
    · exact (Call.Unifies.app hboth).fails (run_pack_error (run_fresh_error h))
  | letIn x v b =>
    rw [infer] at h
    rcases run_bind_error h with h | ⟨⟨τ, θ⟩, s₁, hvalue, h⟩
    · exact .inr ⟨_, s', .operand .letIn, h⟩
    · exact .inr ⟨_, s', .letBody hvalue, run_pack_error h⟩
  | add l r =>
    rw [infer] at h
    exact Arithmetic.add.fails h
  | sub l r =>
    rw [infer] at h
    exact Arithmetic.sub.fails h
  | cons a b =>
    rw [infer] at h
    rcases run_bind_error h with h | ⟨⟨l, r⟩, s₁, hboth, h⟩
    · exact Pair.cons.fails h
    · exact (Call.Unifies.cons hboth).fails (run_pack_error h)
  | head l =>
    rw [infer] at h
    exact Eliminates.head.fails h
  | tail l =>
    rw [infer] at h
    exact Eliminates.tail.fails h
  | fix f =>
    rw [infer] at h
    exact Eliminates.fix.fails h
  | deref e =>
    rw [infer] at h
    exact Eliminates.deref.fails h
  -- past the test of the condition the run is known by its two branches,
  -- whose own lemma takes the failing run as it was given
  | ifZero c a b =>
    rw [infer] at h
    rcases run_bind_error h with h | ⟨⟨τ, θ⟩, s₁, hcond, h⟩
    · exact .inr ⟨_, s', .operand .ifZero, h⟩
    rcases run_bind_error h with h | ⟨θ', s₂, hunify, -⟩
    · exact (Call.Unifies.ifZero hcond).fails h
    · exact (Tested.ifZero hcond (run_unifyAt_ok hunify).1).fails hrun
  | ifEmpty c a b =>
    rw [infer] at h
    rcases run_bind_error h with h | ⟨⟨τ, θ⟩, s₁, hcond, h⟩
    · exact .inr ⟨_, s', .operand .ifEmpty, h⟩
    rcases run_bind_error (run_fresh_error h) with h | ⟨θ', s₂, hunify, -⟩
    · exact (Call.Unifies.ifEmpty hcond).fails h
    · exact (Tested.ifEmpty hcond (run_unifyAt_ok hunify).1).fails hrun
  | mkRef e =>
    rw [infer] at h
    exact .inr ⟨_, s', .operand .mkRef, run_pack_error h⟩
  | assign a b =>
    rw [infer] at h
    rcases run_bind_error h with h | ⟨⟨l, r⟩, s₁, hboth, h⟩
    · exact Pair.assign.fails h
    · exact (Call.Unifies.assign hboth).fails (run_pack_error h)

/-- **A run that fails does so in one of its calls**, at an unbound variable or in a
    unification, by induction on calls. -/
theorem infer_error {c : Call} (h : infer fuel c.env c.term c.supply = (.error e, s')) :
    ∃ c', c.Leads fuel c' ∧ c'.Raises fuel e := by
  revert s'
  refine Call.induction fuel (P := fun c => ∀ {s'},
    infer fuel c.env c.term c.supply = (.error e, s') →
      ∃ c', c.Leads fuel c' ∧ c'.Raises fuel e) ?_ c
  intro c ih s' h
  rcases c.fails h with hraises | ⟨c', s₁, hmakes, hrun⟩
  · exact ⟨c, .refl, hraises⟩
  · obtain ⟨c'', hleads, hraises⟩ := ih c' hmakes hrun
    exact ⟨c'', .head hmakes hleads, hraises⟩

end Failures

end Infer

/-- The fault shows monotypes only. -/
def TypeFault.Mono : TypeFault → Prop
  | .unbound _ => True
  | .unify fault => fault.Mono

theorem Infer.Call.Raises.mono {fuel : Nat} {c : Infer.Call} {e : TypeError}
    (h : c.Raises fuel e) (hc : c.env.Prenex) : e.fault.Mono := by
  cases h with
  | unbound => exact trivial
  | unify h hunify =>
    obtain ⟨ha, hb, hθ⟩ := h.mono hc
    have hres := Unify.unify_mono fuel ha hb hθ
    rw [hunify] at hres
    exact hres

/-- The call that a typing makes with the supply `s`: the free variables of the term have
    fresh types, unless the environment binds them. -/
def Infer.Call.entry (env : TypeEnv) (t : Term) (s : NameSupply) : Infer.Call :=
  let seeded := Infer.seeds t.freeVars.toList s
  ⟨seeded.1.merge env, t, seeded.2⟩

/-- **Quantifiers stay outermost.**  If the types of an environment are schemes, then in
    every call of a typing, whatever its supply, all types in the environment are schemes,
    what is unified are monotypes, and so are the pairs that unification visits.  The
    answer consists of monotypes; a fault was met in one of these calls, and shows
    monotypes. -/
theorem quantifiers_stay_outermost {fuel : Nat} {env : TypeEnv} {t : Term} {s : NameSupply}
    (henv : ∀ (x : String) (σ : Ty), env[x]? = some σ → σ.Prenex) :
    (∀ c, (Infer.Call.entry env t s).Leads fuel c →
      (∀ (x : String) (σ : Ty), c.env[x]? = some σ → σ.Prenex) ∧
        ∀ a b θ, c.Unifies fuel a b θ → a.Mono ∧ b.Mono ∧
          ∀ v, (Unify.Visit.first a b θ).Leads v → v.left.Mono ∧ v.right.Mono) ∧
    (∀ r s', Infer.typing fuel env t s = (.ok r, s') →
      r.type.Mono ∧ (∀ (v : String) (τ : Ty), r.subst[v]? = some τ → τ.Mono) ∧
        ∀ (x : String) (τ : Ty), r.free[x]? = some τ → τ.Mono) ∧
    ∀ e s', Infer.typing fuel env t s = (.error e, s') →
      e.fault.Mono ∧ ∃ c, (Infer.Call.entry env t s).Leads fuel c ∧ c.Raises fuel e := by
  have hentry : (Infer.Call.entry env t s).env.Prenex := Infer.prenex_merge_seeds henv _ s
  refine ⟨fun c hc => ?_, fun r s' h => ?_, fun e s' h => ?_⟩
  · have hcalled := hc.prenex hentry
    refine ⟨hcalled, fun a b θ hunifies => ?_⟩
    obtain ⟨ha, hb, hθ⟩ := hunifies.mono hcalled
    refine ⟨ha, hb, fun v hv => ?_⟩
    obtain ⟨hleft, hright, -, -⟩ := hv.mono (Unify.Visit.mono_first ha hb hθ)
    exact ⟨hleft, hright⟩
  · obtain ⟨τ, hrun, htype, -⟩ := Infer.run_typing_ok h
    obtain ⟨hτ, hθ⟩ := (Infer.Call.entry env t s).returnsMono hentry hrun
    refine ⟨htype ▸ hθ.mono_apply hτ, hθ, fun x σ hx => ?_⟩
    obtain ⟨v, rfl⟩ := Infer.getElem?_free_some h hx
    exact hθ.mono_apply (t := .var v) trivial
  · obtain ⟨c, hc, hraises⟩ :=
      Infer.infer_error (c := Infer.Call.entry env t s) (Infer.run_typing_error h)
    exact ⟨hraises.mono (hc.prenex hentry), c, hc, hraises⟩

/-- The variable `T2` is free in the environment, and the runs issue it as well.  The
    application of `f` fails for that reason; and in the body of `let` the quantifier over
    `T1` has captured what `T2` was bound to.  The schemes are prenex all the same. -/
theorem quantifiers_stay_outermost_captured :
    let env : TypeEnv :=
      (∅ : TypeEnv).insert "f" (.all "T1" (.arrow (.var "T1") (.list (.var "T2"))))
    let named : Term := .letIn "g" (.abs "x" (.app (.var "f") (.var "x"))) (.var "g")
    let applied : Term := .app (.var "f") (.int 1)
    let single : Term := .cons (.int 1) .nil
    let captured : Ty := .all "T1" (.arrow (.var "T1") (.list (.var "T1")))
    (∃ c, (Infer.Call.entry env named (.forTypes "" 0)).Leads 100 c ∧
      c.env["f"]? = some captured ∧ c.env["g"]? = some captured ∧ captured.Prenex) ∧
    (∃ r s', Infer.typing 100 env single (.forTypes "" 0) = (.ok r, s') ∧
      r.type = .list .int ∧ r.subst["T0"]? = some .int ∧
        ∀ (v : String) (τ : Ty), r.subst[v]? = some τ → τ.Mono) ∧
    ∃ e s', Infer.typing 100 env applied (.forTypes "" 0) = (.error e, s') ∧
      e.fault = .unify (.occurs "T2" (.list (.var "T2"))) ∧
        ∃ c, (Infer.Call.entry env applied (.forTypes "" 0)).Leads 100 c ∧ c.Raises 100 e := by
  intro env named applied single captured
  have henv : ∀ (x : String) (σ : Ty), env[x]? = some σ → σ.Prenex := by
    intro x σ hx
    rcases TypeEnv.getElem?_insert_some hx with ⟨-, rfl⟩ | ⟨-, hx⟩
    · exact ⟨trivial, trivial⟩
    · simp at hx
  have hall := fun t : Term => @quantifiers_stay_outermost 100 env t (.forTypes "" 0) henv
  refine ⟨?_, ?_, ?_⟩
  · let start := Infer.Call.entry env named (.forTypes "" 0)
    -- the third variable that the run issues is the `T2` of the environment
    let θ : Subst := ((∅ : Subst).insert "T2" (.var "T1")).insert "T3" (.list (.var "T1"))
    have hvalue : infer 100 start.env (.abs "x" (.app (.var "f") (.var "x"))) start.supply =
        (.ok (.arrow (.var "T1") (.list (.var "T1")), θ), ⟨"T", 4⟩) := by cbv
    have hbody : start.Leads 100 _ := .single (.letBody hvalue)
    refine ⟨_, hbody, ?_, ?hg, ((hall named).1 _ hbody).1 "g" captured ?hg⟩
    · cbv
    · cbv
  · have hrun : Infer.typing 100 env single (.forTypes "" 0) =
        (.ok ⟨.list .int, (∅ : Subst).insert "T0" .int, ∅⟩, ⟨"T", 1⟩) := by cbv
    exact ⟨_, _, hrun, rfl, by simp, ((hall single).2.1 _ _ hrun).2.1⟩
  · have hrun : Infer.typing 100 env applied (.forTypes "" 0) =
        (.error ⟨.unify (.occurs "T2" (.list (.var "T2"))), applied⟩, ⟨"T", 3⟩) := by cbv
    obtain ⟨-, c, hc, hraises⟩ := (hall applied).2.2 _ _ hrun
    exact ⟨_, _, hrun, rfl, c, hc, hraises⟩

end MiniML
