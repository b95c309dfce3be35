/-
  MiniML/Proofs/Typing/Runs.lean
  ==============================
  **Runs of inference, taken apart** — an inference is a function from supplies to
  a result and the supply that is left.  A sequence of inferences succeeds when
  all its parts do, each with the supply that the one before left over
  (`run_bind_ok`).

  What holds of the single actions and passes from the parts of a sequence to the whole
  holds of every inference (`Compositional.infer`); so, whether an inference succeeds or
  not, the supply only ever moves forward (`infer_grows`).
-/
import MiniML.Proofs.Name.Fresh
import MiniML.Proofs.Ty.Scheme
import MiniML.Typing.Infer

namespace MiniML.Infer

variable {α β : Type}

/-! ### Sequences -/

/-- The second part runs where the first ended, unless the first failed. -/
theorem run_bind (m : InferM α) (f : α → InferM β) (s : NameSupply) :
    (m >>= f) s = match m s with
      | (.ok a, s₁) => f a s₁
      | (.error e, s₁) => (.error e, s₁) := by
  change ExceptT.bindCont f (m s).1 (m s).2 = _
  rcases m s with ⟨a | a, s₁⟩ <;> rfl

theorem run_bind_ok {m : InferM α} {f : α → InferM β} {s s' : NameSupply} {b : β}
    (h : (m >>= f) s = (.ok b, s')) :
    ∃ a s₁, m s = (.ok a, s₁) ∧ f a s₁ = (.ok b, s') := by
  rw [run_bind] at h
  split at h
  · rename_i a s₁ hm
    exact ⟨a, s₁, hm, h⟩
  · exact absurd (congrArg Prod.fst h) (by simp)

theorem run_bind_error {m : InferM α} {f : α → InferM β} {s s' : NameSupply} {e : TypeError}
    (h : (m >>= f) s = (.error e, s')) :
    m s = (.error e, s') ∨ ∃ a s₁, m s = (.ok a, s₁) ∧ f a s₁ = (.error e, s') := by
  rw [run_bind] at h
  split at h
  · rename_i a s₁ hm
    exact .inr ⟨a, s₁, hm, h⟩
  · rename_i e' s₁ hm
    cases h
    exact .inl hm

/-- What only packs up a result does not fail. -/
theorem run_pack_error {m : InferM α} {g : α → β} {s s' : NameSupply} {e : TypeError}
    (h : (m >>= fun a => pure (g a)) s = (.error e, s')) : m s = (.error e, s') := by
  rcases run_bind_error h with h | ⟨a, s₁, -, h⟩
  · exact h
  · cases h

theorem run_fresh (s : NameSupply) : fresh s = (.ok (.var s.fresh.1), s.fresh.2) := rfl

theorem run_pure_ok {a c : α} {b d : β} {s s' : NameSupply}
    (h : (pure (a, b) : InferM (α × β)) s = (.ok (c, d), s')) : c = a ∧ d = b ∧ s' = s := by
  cases h
  exact ⟨rfl, rfl, rfl⟩

theorem run_fresh_ok {a : Ty} {s s' : NameSupply} (h : fresh s = (.ok a, s')) :
    a = .var s.fresh.1 ∧ s' = s.fresh.2 := by
  rw [run_fresh, Prod.mk.injEq, Except.ok.injEq] at h
  exact ⟨h.1.symm, h.2.symm⟩

theorem run_fresh_error {f : Ty → InferM α} {s s' : NameSupply} {e : TypeError}
    (h : (fresh >>= f) s = (.error e, s')) :
    f (.var s.fresh.1) s.fresh.2 = (.error e, s') := by
  rwa [run_bind, run_fresh] at h

theorem run_lookup_ok {env : TypeEnv} {x : String} {τ : Ty} {s s' : NameSupply}
    (h : lookup env x s = (.ok τ, s')) :
    ∃ σ, env[x]? = some σ ∧ τ = (σ.instantiate s).1 ∧ s' = (σ.instantiate s).2 := by
  cases hx : env[x]? with
  | some σ =>
    simp only [lookup, hx, instantiate] at h
    cases h
    exact ⟨σ, rfl, rfl, rfl⟩
  | none =>
    simp only [lookup, hx] at h
    cases h

theorem run_lookup_error {env : TypeEnv} {x : String} {s s' : NameSupply} {e : TypeError}
    (h : lookup env x s = (.error e, s')) : env[x]? = none ∧ e = ⟨.unbound x, .var x⟩ := by
  cases hx : env[x]? with
  | some σ =>
    simp only [lookup, hx, instantiate] at h
    cases h
  | none =>
    simp only [lookup, hx] at h
    cases h
    exact ⟨rfl, rfl⟩

theorem run_unifyAt (fuel : Nat) (t : Term) (a b : Ty) (θ : Subst) (s : NameSupply) :
    unifyAt fuel t a b θ s = ((unify fuel a b θ).mapError fun fault => ⟨.unify fault, t⟩, s) := by
  rw [unifyAt]
  cases unify fuel a b θ <;> rfl

theorem run_unifyAt_ok {fuel : Nat} {t : Term} {a b : Ty} {θ θ' : Subst} {s s' : NameSupply}
    (h : unifyAt fuel t a b θ s = (.ok θ', s')) : unify fuel a b θ = .ok θ' ∧ s' = s := by
  rw [run_unifyAt, Prod.mk.injEq] at h
  obtain ⟨h, hs⟩ := h
  cases hu : unify fuel a b θ with
  | ok θ'' =>
    rw [hu] at h
    exact ⟨congrArg Except.ok (Except.ok.inj h), hs.symm⟩
  | error fault =>
    rw [hu] at h
    exact absurd h (by simp [Except.mapError])

theorem run_unifyAt_error {fuel : Nat} {t : Term} {a b : Ty} {θ : Subst} {s s' : NameSupply}
    {e : TypeError} (h : unifyAt fuel t a b θ s = (.error e, s')) :
    ∃ fault, unify fuel a b θ = .error fault ∧ e = ⟨.unify fault, t⟩ := by
  rw [run_unifyAt] at h
  cases hu : unify fuel a b θ with
  | ok θ' =>
    rw [hu] at h
    cases h
  | error fault =>
    rw [hu] at h
    cases h
    exact ⟨fault, rfl, rfl⟩

/-- The unification with which a form ends. -/
theorem run_last_unify_ok {fuel : Nat} {t : Term} {a b : Ty} {θ : Subst} {g : Subst → α} {p : α}
    {s s' : NameSupply} (h : (unifyAt fuel t a b θ >>= fun θ' => pure (g θ')) s = (.ok p, s')) :
    ∃ θ', unify fuel a b θ = .ok θ' ∧ p = g θ' := by
  obtain ⟨θ', s₁, hunify, h⟩ := run_bind_ok h
  cases h
  exact ⟨θ', (run_unifyAt_ok hunify).1, rfl⟩

/-- A typing is inferred with the seeds of the free variables, and resolved. -/
theorem run_typing_ok {fuel : Nat} {env : TypeEnv} {t : Term} {s s' : NameSupply} {r : Typing}
    (h : typing fuel env t s = (.ok r, s')) :
    ∃ τ, infer fuel ((seeds t.freeVars.toList s).1.merge env) t (seeds t.freeVars.toList s).2 =
        (.ok (τ, r.subst), s') ∧ r.type = r.subst.apply τ ∧
      (env.apply r.subst).merge r.free =
        ((seeds t.freeVars.toList s).1.merge env).apply r.subst := by
  simp only [typing] at h
  split at h
  · cases h
  · rename_i τ θ s₁ hrun
    cases h
    refine ⟨τ, hrun, rfl, Std.ExtTreeMap.ext_getElem? fun x => ?_⟩
    simp only [TypeEnv.getElem?_merge, TypeEnv.getElem?_apply, Std.ExtTreeMap.getElem?_filter']
    cases hx : env[x]? with
    | some σ => simp [Std.ExtTreeMap.contains_eq_isSome_getElem?, hx]
    | none =>
      cases hseed : (seeds t.freeVars.toList s).1[x]? <;>
        simp [Std.ExtTreeMap.contains_eq_isSome_getElem?, hx]

/-- The types of the free variables hide nothing that the environment binds. -/
theorem getElem?_merge_free {fuel : Nat} {env : TypeEnv} {t : Term} {s s' : NameSupply} {r : Typing}
    (h : typing fuel env t s = (.ok r, s')) {x : String} {σ : Ty} (hx : env[x]? = some σ) :
    ((env.apply r.subst).merge r.free)[x]? = some (r.subst.apply σ) := by
  obtain ⟨τ, -, -, henv⟩ := run_typing_ok h
  rw [henv, TypeEnv.getElem?_apply, TypeEnv.getElem?_merge, hx]
  rfl

/-- A typing fails where its inference does. -/
theorem run_typing_error {fuel : Nat} {env : TypeEnv} {t : Term} {s s' : NameSupply}
    {e : TypeError} (h : typing fuel env t s = (.error e, s')) :
    infer fuel ((seeds t.freeVars.toList s).1.merge env) t (seeds t.freeVars.toList s).2 =
      (.error e, s') := by
  simp only [typing] at h
  split at h
  · rename_i hrun
    cases h
    exact hrun
  · cases h

/-- The number of type variables that are drawn for a typing. -/
def drawn (fuel : Nat) (env : TypeEnv) (t : Term) : Int :=
  ((typing fuel env t).run (.forTypes "" 0)).2.count

/-! ### Properties of all computations -/

/-- A property of computations that holds of every single action of inference, and of a
    sequence whose parts have it. -/
structure Compositional (P : ∀ {α : Type}, InferM α → Prop) : Prop where
  pure : ∀ {α : Type} (a : α), P (pure a : InferM α)
  throw : ∀ {α : Type} (e : TypeError), P (throw e : InferM α)
  bind : ∀ {α β : Type} {m : InferM α} {f : α → InferM β}, P m → (∀ a, P (f a)) → P (m >>= f)
  fresh : P fresh
  instantiate : ∀ σ : Ty, P (instantiate σ)

namespace Compositional

variable {P : ∀ {α : Type}, InferM α → Prop}

theorem unifyAt (hP : Compositional P) (fuel : Nat) (t : Term) (a b : Ty) (θ : Subst) :
    P (Infer.unifyAt fuel t a b θ) := by
  rw [Infer.unifyAt]
  split
  · exact hP.pure _
  · exact hP.throw _

theorem lookup (hP : Compositional P) (env : TypeEnv) (x : String) :
    P (Infer.lookup env x) := by
  rw [Infer.lookup]
  split
  · exact hP.instantiate _
  · exact hP.throw _

theorem both (hP : Compositional P) {first second : Part} (h₁ : ∀ env, P (first env))
    (h₂ : ∀ env, P (second env)) (env : TypeEnv) : P (Infer.both env first second) :=
  hP.bind (h₁ env) fun l => hP.bind (h₂ (env.apply l.2)) fun r => hP.pure (l, r)

theorem arith (hP : Compositional P) {left right : Part} (h₁ : ∀ env, P (left env))
    (h₂ : ∀ env, P (right env)) (fuel : Nat) (whole : Term) (env : TypeEnv) :
    P (Infer.arith fuel whole env left right) :=
  hP.bind (hP.both h₁ h₂ env) fun _ => hP.bind (hP.unifyAt ..) fun _ =>
    hP.bind (hP.unifyAt ..) fun _ => hP.pure _

theorem eliminate (hP : Compositional P) {operand : Part} (h : ∀ env, P (operand env))
    (fuel : Nat) (whole : Term) (env : TypeEnv) (shape result : Ty → Ty) :
    P (Infer.eliminate fuel whole env operand shape result) :=
  hP.bind (h env) fun _ => hP.bind hP.fresh fun _ => hP.bind (hP.unifyAt ..) fun _ => hP.pure _

theorem branches (hP : Compositional P) {first second : Part} (h₁ : ∀ env, P (first env))
    (h₂ : ∀ env, P (second env)) (fuel : Nat) (whole : Term) (env : TypeEnv) (θ : Subst) :
    P (Infer.branches fuel whole env θ first second) :=
  hP.bind (h₁ _) fun _ => hP.bind (h₂ _) fun _ => hP.bind (hP.unifyAt ..) fun _ => hP.pure _

/-- Such a property holds of inference, by induction on the term. -/
theorem infer (hP : Compositional P) (fuel : Nat) (t : Term) (env : TypeEnv) :
    P (MiniML.infer fuel env t) := by
  induction t generalizing env with
  | var x => exact hP.bind (hP.lookup env x) fun _ => hP.pure _
  | int | unit => exact hP.pure _
  | nil | region => exact hP.bind hP.fresh fun _ => hP.pure _
  | abs x b ih => exact hP.bind hP.fresh fun _ => hP.bind (ih _) fun _ => hP.pure _
  | app f a ihf iha =>
    exact hP.bind (hP.both ihf iha env) fun _ => hP.bind hP.fresh fun _ =>
      hP.bind (hP.unifyAt ..) fun _ => hP.pure _
  | letIn x v b ihv ihb => exact hP.bind (ihv env) fun _ => hP.bind (ihb _) fun _ => hP.pure _
  | add l r ihl ihr => exact hP.arith ihl ihr fuel _ env
  | sub l r ihl ihr => exact hP.arith ihl ihr fuel _ env
  | cons h t ihh iht =>
    exact hP.bind (hP.both ihh iht env) fun _ => hP.bind (hP.unifyAt ..) fun _ => hP.pure _
  | head l ih | tail l ih => exact hP.eliminate ih fuel _ env _ _
  | fix f ih => exact hP.eliminate ih fuel _ env _ _
  | deref e ih => exact hP.eliminate ih fuel _ env _ _
  | ifZero c t e ihc iht ihe =>
    exact hP.bind (ihc env) fun _ => hP.bind (hP.unifyAt ..) fun _ =>
      hP.branches iht ihe fuel _ env _
  | ifEmpty c t e ihc iht ihe =>
    exact hP.bind (ihc env) fun _ => hP.bind hP.fresh fun _ => hP.bind (hP.unifyAt ..) fun _ =>
      hP.branches iht ihe fuel _ env _
  | mkRef e ih => exact hP.bind (ih env) fun _ => hP.pure _
  | assign r v ihr ihv =>
    exact hP.bind (hP.both ihr ihv env) fun _ => hP.bind (hP.unifyAt ..) fun _ => hP.pure _

end Compositional

/-! ### Growth -/

/-- The supply that is left is one that the given supply leads to. -/
def Grows (m : InferM α) : Prop := ∀ s : NameSupply, s.Before (m s).2

theorem grows_pure (a : α) : Grows (pure a : InferM α) := fun s => .refl s

theorem Grows.bind {m : InferM α} {f : α → InferM β} (hm : Grows m) (hf : ∀ a, Grows (f a)) :
    Grows (m >>= f) := by
  intro s
  have hs := hm s
  rw [run_bind]
  split
  · rename_i a s₁ h
    rw [h] at hs
    exact hs.trans (hf a s₁)
  · rename_i e s₁ h
    rw [h] at hs
    exact hs

theorem grows_fresh : Grows fresh := NameSupply.before_fresh

theorem compositional_grows : Compositional Grows where
  pure := grows_pure
  throw _ s := .refl s
  bind := Grows.bind
  fresh := grows_fresh
  instantiate σ s := σ.before_instantiate s

theorem grows_unifyAt {fuel : Nat} {t : Term} {a b : Ty} {θ : Subst} :
    Grows (unifyAt fuel t a b θ) :=
  compositional_grows.unifyAt fuel t a b θ

theorem grows_branches {first second : Part} (h₁ : ∀ env, Grows (first env))
    (h₂ : ∀ env, Grows (second env)) (fuel : Nat) (whole : Term) (env : TypeEnv) (θ : Subst) :
    Grows (branches fuel whole env θ first second) :=
  compositional_grows.branches h₁ h₂ fuel whole env θ

/-- Inference moves its supply forward, also when it fails. -/
theorem infer_grows (fuel : Nat) (t : Term) (env : TypeEnv) : Grows (infer fuel env t) :=
  compositional_grows.infer fuel t env

/-- The count after a run that succeeded is not below the count before. -/
theorem before_of_infer {fuel : Nat} {t : Term} {env : TypeEnv} {s s' : NameSupply}
    {r : Except TypeError (Ty × Subst)} (h : infer fuel env t s = (r, s')) : s.Before s' := by
  have hs := infer_grows fuel t env s
  rw [h] at hs
  exact hs

end MiniML.Infer
