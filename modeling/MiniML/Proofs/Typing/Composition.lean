/-
  MiniML/Proofs/Typing/Composition.lean
  =====================================
  **One substitution after the other** — a form with several parts composes what its
  parts force.  Composition rewrites the bindings of the first substitution by the
  second and resolves nothing else, while application resolves bindings transitively; so
  the composition acts like the two in turn only if they do not interfere
  (`Subst.Apart`).

  In inference they never do.  Each part is inferred in the environment as the parts
  before it left it (`Infer.Call.GoesOn`), where nothing that they bound is left, and with
  names that nobody has seen before.  This holds in every call of a run, whether the
  run succeeds or not, since a call that fails leaves its supply behind as well
  (`Infer.Call.Makes.before`).
-/
import MiniML.Proofs.Typing.Calls

namespace MiniML.Infer

open Subst

/-! ### What a call leaves of its supply -/

section Supplies

variable {α β : Type} {fuel : Nat} {env : TypeEnv} {s : NameSupply} {t : Term}

/-- The supply that is left after a call, which may have failed. -/
def Call.rest (fuel : Nat) (c : Call) : NameSupply := (infer fuel c.env c.term c.supply).2

/-- Whatever comes after the first part only moves the supply forward. -/
theorem first_before (m : InferM α) {f : α → InferM β} (hf : ∀ a, Grows (f a)) (s : NameSupply) :
    (m s).2.Before ((m >>= f) s).2 := by
  rw [run_bind]
  split
  · rename_i a s₁ hm
    rw [hm]
    exact hf a s₁
  · rename_i e s₁ hm
    rw [hm]
    exact .refl s₁

theorem Operand.before {o : Term} (ho : Operand t o) (env : TypeEnv) (s : NameSupply) :
    (infer fuel env o s).2.Before (infer fuel env t s).2 := by
  have heliminate : ∀ shape result : Ty → Ty, (infer fuel env o s).2.Before
      (eliminate fuel t env (infer fuel · o) shape result s).2 := by
    intro shape result
    exact first_before _ (fun _ => grows_fresh.bind fun _ => grows_unifyAt.bind fun _ =>
      grows_pure _) s
  cases ho with
  | head | tail | fix | deref =>
    rw [infer]
    exact heliminate ..
  | letIn =>
    rw [infer]
    exact first_before _ (fun _ => (infer_grows fuel _ _).bind fun _ => grows_pure _) s
  | mkRef =>
    rw [infer]
    exact first_before _ (fun _ => grows_pure _) s
  | ifZero =>
    rw [infer]
    exact first_before _ (fun _ => grows_unifyAt.bind fun _ =>
      grows_branches (infer_grows fuel _) (infer_grows fuel _) fuel _ env _) s
  | ifEmpty =>
    rw [infer]
    exact first_before _ (fun _ => grows_fresh.bind fun _ => grows_unifyAt.bind fun _ =>
      grows_branches (infer_grows fuel _) (infer_grows fuel _) fuel _ env _) s

theorem Pair.both_before {l r : Term} (hp : Pair t l r) (env : TypeEnv) (s : NameSupply) :
    (both env (infer fuel · l) (infer fuel · r) s).2.Before (infer fuel env t s).2 := by
  cases hp with
  | add | sub =>
    rw [infer]
    exact first_before _ (fun _ => grows_unifyAt.bind fun _ => grows_unifyAt.bind fun _ =>
      grows_pure _) s
  | app =>
    rw [infer]
    exact first_before _ (fun _ => grows_fresh.bind fun _ => grows_unifyAt.bind fun _ =>
      grows_pure _) s
  | cons | assign =>
    rw [infer]
    exact first_before _ (fun _ => grows_unifyAt.bind fun _ => grows_pure _) s

/-- **A call moves its supply as far as the calls that it makes.** -/
theorem Call.Makes.before {c c' : Call} (h : c.Makes fuel c') :
    (c'.rest fuel).Before (c.rest fuel) := by
  cases h with
  | operand ho => exact ho.before ..
  | @left env t l r s hp =>
    refine NameSupply.Before.trans ?_ (hp.both_before env s)
    exact first_before _ (fun _ => (infer_grows fuel r _).bind fun _ => grows_pure _) s
  | @right env t l r s τ θ s₁ hp hrun =>
    refine NameSupply.Before.trans ?_ (hp.both_before env s)
    rw [both, run_bind, hrun]
    exact first_before _ (fun _ => grows_pure _) s₁
  | body =>
    dsimp only [Call.rest]
    rw [infer, run_bind, run_fresh]
    exact first_before _ (fun _ => grows_pure _) _
  | letBody hrun =>
    dsimp only [Call.rest]
    rw [infer, run_bind, hrun]
    exact first_before _ (fun _ => grows_pure _) _
  | thenBranch ht =>
    dsimp only [Call.rest]
    rw [ht.run_eq]
    exact first_before _ (fun _ => (infer_grows fuel _ _).bind fun _ => grows_unifyAt.bind fun _ =>
      grows_pure _) _
  | elseBranch ht hrun =>
    dsimp only [Call.rest]
    rw [ht.run_eq, branches, run_bind, hrun]
    exact first_before _ (fun _ => grows_unifyAt.bind fun _ => grows_pure _) _

end Supplies

/-! ### Parts that follow others -/

/-- The first call has put together the substitution from the parts before, and goes on
    with the second call for the next part. -/
inductive Call.GoesOn (fuel : Nat) : Call → Subst → Call → Prop where
  | right {env t l r s τ θ s₁} (h : Pair t l r) (hrun : infer fuel env l s = (.ok (τ, θ), s₁)) :
      GoesOn fuel ⟨env, t, s⟩ θ ⟨env.apply θ, r, s₁⟩
  | letBody {env x v b s τ θ s₁} (hrun : infer fuel env v s = (.ok (τ, θ), s₁)) :
      GoesOn fuel ⟨env, .letIn x v b, s⟩ θ
        ⟨(env.apply θ).insert x (letScheme (env.apply θ) v (θ.apply τ)), b, s₁⟩
  | thenBranch {env t a b s θ s₁} (h : Tested fuel env s t a b θ s₁) :
      GoesOn fuel ⟨env, t, s⟩ θ ⟨env.apply θ, a, s₁⟩
  | elseBranch {env t a b s θ s₁ τ θ₂ s₂} (h : Tested fuel env s t a b θ s₁)
      (hrun : infer fuel (env.apply θ) a s₁ = (.ok (τ, θ₂), s₂)) :
      GoesOn fuel ⟨env, t, s⟩ (θ.compose θ₂) ⟨env.apply (θ.compose θ₂), b, s₂⟩

/-- The call composes the first substitution with the second: it has put together the
    first when it goes on with a part that forces the second. -/
def Call.Composes (fuel : Nat) (c : Call) (θ θ' : Subst) : Prop :=
  ∃ c' τ s', c.GoesOn fuel θ c' ∧ infer fuel c'.env c'.term c'.supply = (.ok (τ, θ'), s')

section Parts

variable {fuel : Nat} {limit : Int} {c c' : Call} {θ θ' : Subst}

theorem Call.GoesOn.makes (h : c.GoesOn fuel θ c') : c.Makes fuel c' := by
  cases h with
  | right hp hrun => exact .right hp hrun
  | letBody hrun => exact .letBody hrun
  | thenBranch ht => exact .thenBranch ht
  | elseBranch ht hrun => exact .elseBranch ht hrun

/-- The next part knows nothing that the parts before it bound. -/
theorem Call.GoesOn.forces (h : c.GoesOn fuel θ c') (hc : c.env.Supplied c.supply limit)
    (hl : c'.supply.count ≤ limit) :
    Forces c.env c.supply θ c'.supply ∧ Carries c.env c.supply θ c'.supply c'.env := by
  cases h with
  | right _ hrun =>
    have ha := infer_sound fuel limit _ hc hrun hl
    exact ⟨ha.forces, ha.forces.carries hc⟩
  | letBody hrun =>
    have ha := infer_sound fuel limit _ hc hrun hl
    exact ⟨ha.forces, carries_letScheme hc ha.forces ha.named _⟩
  | thenBranch ht =>
    have hθ := ht.forces hc hl
    exact ⟨hθ, hθ.carries hc⟩
  | elseBranch ht hrun =>
    have hl₁ := Int.le_trans (before_of_infer hrun).count hl
    have hθ := ht.forces hc hl₁
    have ha := infer_sound fuel limit _ (hθ.supplied hc) hrun hl
    have hboth := (ha.next hθ hc hl).forces
    exact ⟨hboth, hboth.carries hc⟩

theorem Call.Composes.apart (h : c.Composes fuel θ θ') (hc : c.env.Supplied c.supply limit)
    (hl : (c.rest fuel).count ≤ limit) : θ.Regular ∧ θ'.Regular ∧ θ.Apart θ' := by
  obtain ⟨c', τ, s', hnext, hrun⟩ := h
  have hs' : s'.count ≤ limit := by
    have hbefore := hnext.makes.before
    rw [Call.rest, hrun] at hbefore
    exact Int.le_trans hbefore.count hl
  have hl' := Int.le_trans (before_of_infer hrun).count hs'
  obtain ⟨hforces, hcarries⟩ := hnext.forces hc hl'
  have ha := infer_sound fuel limit _ (hnext.makes.supplied hc hl') hrun hs'
  exact ⟨hforces.regular, ha.forces.regular, hforces.apart hc hcarries ha.forces hs'⟩

/-- What a run starts with is passed on to every call: an environment that meets no name
    still to be issued, and a supply that does not pass the limit. -/
theorem Call.Leads.supplied (h : c.Leads fuel c') (hc : c.env.Supplied c.supply limit)
    (hl : (c.rest fuel).count ≤ limit) :
    c'.env.Supplied c'.supply limit ∧ (c'.rest fuel).count ≤ limit := by
  induction h with
  | refl => exact ⟨hc, hl⟩
  | @tail d c' _ hmakes ih =>
    obtain ⟨hd, hld⟩ := ih
    have hrest := Int.le_trans hmakes.before.count hld
    exact ⟨hmakes.supplied hd (Int.le_trans (infer_grows fuel c'.term c'.env c'.supply).count hrest),
      hrest⟩

end Parts

end MiniML.Infer

namespace MiniML

/-- A typing leaves the supply that its first call leaves. -/
theorem Infer.Call.rest_start (fuel : Nat) (env : TypeEnv) (t : Term) :
    (Infer.Call.start env t).rest fuel = ((Infer.typing fuel env t).run (.forTypes "" 0)).2 := by
  cases hrun : (Infer.typing fuel env t) (.forTypes "" 0) with
  | mk answer s' =>
    change _ = ((Infer.typing fuel env t) (.forTypes "" 0)).2
    rw [hrun]
    cases answer with
    | ok r =>
      obtain ⟨τ, hinfer, -, -⟩ := Infer.run_typing_ok hrun
      exact congrArg Prod.snd hinfer
    | error e => exact congrArg Prod.snd (Infer.run_typing_error hrun)

/-- **Composition applies one substitution after the other.**  Let the two be acyclic and
    bind monotypes, let nothing that the first binds occur in the bindings of the second,
    and nothing that both bind in those of the first.  Then the composition is acyclic, and
    it resolves every monotype as the two do in turn.  So it is whenever inference composes,
    in every call of a run that starts in an environment of schemes in which no numbered
    `T` is free. -/
theorem compose_applies_in_turn :
    (∀ s later : Subst, s.Regular → later.Regular → s.Apart later →
      (s.compose later).Acyclic ∧
        ∀ t : Ty, t.Mono → (s.compose later).apply t = later.apply (s.apply t)) ∧
    ∀ (fuel : Nat) (env : TypeEnv) (t : Term),
      (∀ (x : String) (σ : Ty), env[x]? = some σ → σ.Prenex) →
      (∀ v ∈ env.freeTypeVars, ∀ n : Nat, v ≠ "T" ++ toString n) →
      Infer.drawn fuel env t ≤ 2 ^ 63 →
      ∀ (c : Infer.Call) (s later : Subst), (Infer.Call.start env t).Leads fuel c →
        c.Composes fuel s later → s.Regular ∧ later.Regular ∧ s.Apart later := by
  refine ⟨fun s later hs hl h => ⟨(hs.compose hl h).acyclic, fun t => h.apply_compose hs hl⟩, ?_⟩
  intro fuel env t hprenex hnames hdrawn c s later hc h
  have hsupplied : env.Supplied (.forTypes "" 0) (2 ^ 63) :=
    ⟨Int.le_refl 0, Int.le_refl _, hprenex _ _, fun v hv =>
      spares_forTypes (hnames v hv) (Int.le_refl _)⟩
  have hrest : ((Infer.Call.start env t).rest fuel).count ≤ 2 ^ 63 := by
    rw [Infer.Call.rest_start]
    exact hdrawn
  obtain ⟨hc, hl⟩ := hc.supplied (Infer.supplied_seeds hsupplied t.freeVars.toList) hrest
  exact h.apart hc hl

/-- Two substitutions that both bind `a`, with a chain of bindings that leads from the one
    into the other; and what inference composes for `let x = head nil in add x 1`. -/
theorem compose_applies_in_turn_chain :
    (let s : Subst := (∅ : Subst).insert "a" (.arrow (.var "b") (.var "b"))
      let later : Subst := (((∅ : Subst).insert "b" (.list (.var "c"))).insert "c" .int).insert
        "a" .unit
      s.Regular ∧ later.Regular ∧ s.Apart later ∧ (s.compose later).Acyclic ∧
        (s.compose later).apply (.arrow (.var "a") (.var "b")) =
          .arrow (.arrow (.list .int) (.list .int)) (.list .int)) ∧
    let t : Term := .letIn "x" (.head .nil) (.add (.var "x") (.int 1))
    let s : Subst := (∅ : Subst).insert "T0" (.var "T1")
    let later : Subst := (∅ : Subst).insert "T2" .int
    (Infer.Call.start ∅ t).Composes 100 s later ∧ s.Apart later := by
  obtain ⟨hcompose, hinfer⟩ := compose_applies_in_turn
  refine ⟨?_, ?_⟩
  · intro s later
    have hs : s.Regular := by
      refine Subst.regular_empty.insert ?_ ?_ ?_
      all_goals simp [Ty.Mono]
    have hl : later.Regular := by
      refine ((Subst.regular_empty.insert ?_ ?_ ?_).insert ?_ ?_ ?_).insert ?_ ?_ ?_
      all_goals simp [Ty.Mono]
    have hbound : ∀ {x : String} {t : Ty}, s[x]? = some t →
        x = "a" ∧ t = .arrow (.var "b") (.var "b") := by
      intro x t hx
      rcases Subst.getElem?_insert_some hx with hx | ⟨-, hx⟩
      · exact hx
      · simp at hx
    have hlater : ∀ {x y : String}, later.Refers y x → x = "c" := by
      rintro x y ⟨t, ht, hx⟩
      rcases Subst.getElem?_insert_some ht with ⟨-, rfl⟩ | ⟨-, ht⟩
      · simp at hx
      · rcases Subst.getElem?_insert_some ht with ⟨-, rfl⟩ | ⟨-, ht⟩
        · simp at hx
        · rcases Subst.getElem?_insert_some ht with ⟨-, rfl⟩ | ⟨-, ht⟩
          · simpa using hx
          · simp at ht
    have hapart : s.Apart later := by
      refine ⟨fun hx href => ?_, fun hx _ href => ?_⟩
      · obtain ⟨t, ht⟩ := Option.ne_none_iff_exists'.mp hx
        exact absurd ((hbound ht).1.symm.trans (hlater href)) (by decide)
      · obtain ⟨t, ht⟩ := Option.ne_none_iff_exists'.mp hx
        obtain ⟨u, hu, hmem⟩ := href
        rw [(hbound ht).1, (hbound hu).2] at hmem
        revert hmem
        decide
    obtain ⟨hacyclic, happly⟩ := hcompose s later hs hl hapart
    have hturn := happly (.arrow (.var "a") (.var "b")) ⟨trivial, trivial⟩
    exact ⟨hs, hl, hapart, hacyclic, hturn.trans (by cbv)⟩
  · intro t s later
    have hstart : Infer.Call.start ∅ t = ⟨∅, t, .forTypes "" 0⟩ := by cbv
    have hvalue : infer 100 (∅ : TypeEnv) (.head .nil) (.forTypes "" 0) =
        (.ok (.var "T1", s), ⟨"T", 2⟩) := by cbv
    have hbody : infer 100
        (((∅ : TypeEnv).apply s).insert "x"
          (Infer.letScheme ((∅ : TypeEnv).apply s) (.head .nil) (s.apply (.var "T1"))))
        (.add (.var "x") (.int 1)) ⟨"T", 2⟩ = (.ok (.int, later), ⟨"T", 3⟩) := by cbv
    have h : (Infer.Call.start ∅ t).Composes 100 s later := by
      rw [hstart]
      exact ⟨_, .int, ⟨"T", 3⟩, .letBody hvalue, hbody⟩
    have hdrawn : Infer.drawn 100 ∅ t = 3 := by cbv
    refine ⟨h, (hinfer 100 ∅ t ?_ ?_ ?_ _ s later .refl h).2.2⟩
    · intro x σ hx
      simp at hx
    · intro v hv
      obtain ⟨x, σ, hx, -⟩ := TypeEnv.mem_freeTypeVars.mp hv
      simp at hx
    · omega

end MiniML
