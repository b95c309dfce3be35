/-
  MiniML/Proofs/Typing/Hygiene.lean
  =================================
  **Names during inference** — a run of inference starts with a supply `s`, ends
  with a supply `s'`, and answers with a substitution.  The only type variables it
  knows are those that are free in its environment and those that were issued
  between `s` and `s'` (`Known`), so its substitution speaks of no others
  (`Forces`).  If no free name is issued (`TypeEnv.Supplied`), what two runs force
  one after the other may be composed (`Forces.compose`).

  Nothing is ever renamed when a substitution is applied to a scheme.  What makes
  this harmless is that no quantified name is known (`TypeEnv.Ready`): then no
  quantifier gets in the way of what a run forces (`Forces.cleared`), and the
  environment is ready for the next run (`Forces.ready`).
-/
import MiniML.Proofs.Ty.Scheme
import MiniML.Proofs.Ty.Unifier
import MiniML.Typing.Infer

namespace MiniML

/-- `v` is free in the environment, or is issued on the way from `s` to `s'`. -/
def Known (env : TypeEnv) (s s' : NameSupply) (v : String) : Prop :=
  v ∈ env.freeTypeVars ∨ s.Issued s' v

/-- A monotype over known variables. -/
def Named (env : TypeEnv) (s s' : NameSupply) (τ : Ty) : Prop :=
  τ.Mono ∧ ∀ v ∈ τ.freeVars, Known env s s' v

namespace TypeEnv

/-- `q` is quantified in a scheme of the environment that has free variables too. -/
def Quantifies (env : TypeEnv) (q : String) : Prop :=
  ∃ (x : String) (σ : Ty), env[x]? = some σ ∧ σ.freeVars ≠ [] ∧ q ∈ σ.splitAll.1

/-- The environment holds schemes in which no free name meets a name that `s` issues
    before its count reaches `limit`. -/
structure Supplied (env : TypeEnv) (s : NameSupply) (limit : Int) : Prop where
  start : 0 ≤ s.count
  bound : limit ≤ 2 ^ 63
  prenex : ∀ {x : String} {σ : Ty}, env[x]? = some σ → σ.Prenex
  free : ∀ v ∈ env.freeTypeVars, s.Spares limit v

/-- Moreover no quantified name meets one, and no free name is quantified. -/
structure Ready (env : TypeEnv) (s : NameSupply) (limit : Int) : Prop extends
    Supplied env s limit where
  quantified : ∀ q, env.Quantifies q → q ∉ env.freeTypeVars ∧ s.Spares limit q

end TypeEnv

/-- `θ` is what a run from `s` to `s'` may force on its environment. -/
structure Forces (env : TypeEnv) (s : NameSupply) (θ : Subst) (s' : NameSupply) : Prop where
  before : s.Before s'
  regular : θ.Regular
  within : θ.Within (Known env s s')

/-- The free names of `env'` are known after a run that does not bind them. -/
def Carries (env : TypeEnv) (s : NameSupply) (θ : Subst) (s' : NameSupply) (env' : TypeEnv) :
    Prop :=
  ∀ v ∈ env'.freeTypeVars, Known env s s' v ∧ θ[v]? = none

/-- A substitution adds no quantifiers. -/
theorem TypeEnv.Quantifies.of_apply {env : TypeEnv} {θ : Subst} (hθ : θ.Regular)
    (hp : ∀ {x : String} {σ : Ty}, env[x]? = some σ → σ.Prenex) {q : String}
    (hq : (env.apply θ).Quantifies q) : env.Quantifies q := by
  obtain ⟨x, ρ, hx, hne, hq⟩ := hq
  obtain ⟨σ, hσ, rfl⟩ := TypeEnv.getElem?_apply_some hx
  rw [hθ.splitAll_apply (hp hσ)] at hq
  refine ⟨x, σ, hσ, fun hnil => hne ?_, hq⟩
  rw [Subst.apply_eq_self (by simp [hnil]), hnil]

/-! ### Known names -/

section Known

variable {env : TypeEnv} {s s₁ s' : NameSupply} {limit : Int} {v : String}

theorem Known.later (h : Known env s s₁ v) (hs : s₁.Before s') : Known env s s' v :=
  h.imp_right fun hi => hi.later hs

theorem Named.later {τ : Ty} (h : Named env s s₁ τ) (hs : s₁.Before s') : Named env s s' τ :=
  ⟨h.1, fun v hv => (h.2 v hv).later hs⟩

theorem named_arrow {a b : Ty} (ha : Named env s s' a) (hb : Named env s s' b) :
    Named env s s' (.arrow a b) :=
  ⟨⟨ha.1, hb.1⟩, fun v hv => (Ty.mem_freeVars_arrow.mp hv).elim (ha.2 v) (hb.2 v)⟩

/-- What is known is not issued again. -/
theorem Known.spares (h : Known env s s' v) (hr : env.Supplied s limit) (hs : s.Before s') :
    s'.Spares limit v := by
  rcases h with h | h
  · exact (hr.free v h).later hs
  · exact h.spares hs hr.start hr.bound

/-- No quantified name is known. -/
theorem TypeEnv.Ready.not_known (hr : env.Ready s limit) (hl : s'.count ≤ limit)
    (hq : env.Quantifies v) : ¬ Known env s s' v := by
  obtain ⟨hfree, hspare⟩ := hr.quantified v hq
  rintro (h | h)
  · exact hfree h
  · exact hspare.not_issued hl h

theorem known_fresh (env : TypeEnv) (s : NameSupply) : Known env s s.fresh.2 s.fresh.1 :=
  .inr (NameSupply.issued_fresh s)

theorem named_fresh (env : TypeEnv) (s : NameSupply) : Named env s s.fresh.2 (.var s.fresh.1) := by
  refine ⟨trivial, fun v hv => ?_⟩
  rw [Ty.mem_freeVars_var.mp hv]
  exact known_fresh env s

theorem TypeEnv.Supplied.isPrenex (hr : env.Supplied s limit) : env.Prenex :=
  fun _ _ hx => hr.prenex hx

/-- An environment whose free names are known has none that the supply that is left
    issues. -/
theorem TypeEnv.Supplied.of_known {env' : TypeEnv} (hr : env.Supplied s limit)
    (hs : s.Before s') (hp : ∀ {x : String} {σ : Ty}, env'[x]? = some σ → σ.Prenex)
    (hfree : ∀ v ∈ env'.freeTypeVars, Known env s s' v) : env'.Supplied s' limit where
  start := Int.le_trans hr.start hs.count
  bound := hr.bound
  prenex := hp
  free v hv := (hfree v hv).spares hr hs

/-- If it quantifies nothing new either, it is ready for that supply. -/
theorem TypeEnv.Ready.of_known {env' : TypeEnv} (hr : env.Ready s limit) (hs : s.Before s')
    (hl : s'.count ≤ limit) (hp : ∀ {x : String} {σ : Ty}, env'[x]? = some σ → σ.Prenex)
    (hfree : ∀ v ∈ env'.freeTypeVars, Known env s s' v)
    (hquant : ∀ q, env'.Quantifies q → env.Quantifies q) : env'.Ready s' limit where
  toSupplied := hr.toSupplied.of_known hs hp hfree
  quantified q hq :=
    ⟨fun hmem => hr.not_known hl (hquant q hq) (hfree q hmem),
      (hr.quantified q (hquant q hq)).2.later hs⟩

end Known

/-! ### One run -/

section Forces

variable {env : TypeEnv} {s s' : NameSupply} {limit : Int} {θ : Subst}

theorem Forces.empty (hs : s.Before s') : Forces env s ∅ s' :=
  ⟨hs, Subst.regular_empty, Subst.within_empty _⟩

theorem Forces.later {s'' : NameSupply} (h : Forces env s θ s') (hs : s'.Before s'') :
    Forces env s θ s'' :=
  ⟨h.before.trans hs, h.regular, h.within.imp fun _ hv => hv.later hs⟩

theorem Forces.named_apply (h : Forces env s θ s') {τ : Ty} (hτ : Named env s s' τ) :
    Named env s s' (θ.apply τ) :=
  ⟨h.regular.mono_apply hτ.1, h.regular.mem_apply h.within hτ.1 hτ.2⟩

/-- A variable that is drawn after a run. -/
theorem Forces.named_fresh (h : Forces env s θ s') :
    Named env s s'.fresh.2 (.var s'.fresh.1) := by
  refine ⟨trivial, fun v hv => .inr ?_⟩
  rw [Ty.mem_freeVars_var.mp hv]
  exact (NameSupply.issued_fresh s').earlier h.before

/-- Quantifiers over names that are not known do not get in the way of what a run
    forces. -/
theorem Forces.clears (h : Forces env s θ s') {x : String} {σ : Ty} (hx : env[x]? = some σ)
    (hσ : σ.freeVars ≠ [] → ∀ q ∈ σ.splitAll.1, ¬ Known env s s' q) : θ.Clears σ := by
  by_cases hnil : σ.freeVars = []
  · exact .inl hnil
  · refine .inr fun q hq => ⟨?_, fun v hv hmem => hσ hnil q hq ?_⟩
    · cases hq' : θ[q]? with
      | none => rfl
      | some t => exact absurd (h.within hq').1 (hσ hnil q hq)
    · exact h.regular.mem_resolve h.within (.inl (TypeEnv.freeVars_subset hx v hv)) q hmem

theorem Forces.cleared (h : Forces env s θ s') (hr : env.Ready s limit) (hl : s'.count ≤ limit) :
    env.Cleared θ :=
  fun x σ hx => ⟨hr.prenex hx, h.clears hx fun hne _ hq => hr.not_known hl ⟨x, σ, hx, hne, hq⟩⟩

/-- The substituted environment carries known names only, even if a quantifier gets in
    the way. -/
theorem Forces.carries (h : Forces env s θ s') (hr : env.Supplied s limit) :
    Carries env s θ s' (env.apply θ) := by
  intro u hu
  obtain ⟨x, ρ, hx, hu⟩ := TypeEnv.mem_freeTypeVars.mp hu
  obtain ⟨σ, hσ, rfl⟩ := TypeEnv.getElem?_apply_some hx
  exact (h.regular.mem_freeVars_apply (hr.prenex hσ) h.within
    (fun v hv => .inl (TypeEnv.freeVars_subset hσ v hv)) hu).symm

theorem Forces.supplied (h : Forces env s θ s') (hr : env.Supplied s limit) :
    (env.apply θ).Supplied s' limit := by
  have hprenex := hr.isPrenex.apply h.regular.bindsMono
  exact hr.of_known h.before (fun hx => hprenex hx) fun v hv => (h.carries hr v hv).1

/-- The substituted environment is ready for the next run. -/
theorem Forces.ready (h : Forces env s θ s') (hr : env.Ready s limit) (hl : s'.count ≤ limit) :
    (env.apply θ).Ready s' limit := by
  have hs := h.supplied hr.toSupplied
  exact hr.of_known h.before hl hs.prenex (fun v hv => (h.carries hr.toSupplied v hv).1)
    fun _ hq => hq.of_apply h.regular hr.prenex

end Forces

/-! ### Larger environments -/

section Insert

variable {env : TypeEnv} {s : NameSupply} {limit : Int}

/-- An environment stays ready when a scheme is added whose free names meet
    nothing that is quantified, and whose quantified names meet nothing at all. -/
theorem TypeEnv.Ready.insert (hr : env.Ready s limit) {σ : Ty} (x : String) (hσ : σ.Prenex)
    (hfree : ∀ v ∈ σ.freeVars, s.Spares limit v ∧ ¬ env.Quantifies v)
    (hquant : ∀ q ∈ σ.splitAll.1, q ∉ env.freeTypeVars ∧ s.Spares limit q) :
    Ready (env.insert x σ) s limit where
  start := hr.start
  bound := hr.bound
  prenex hy := hr.toSupplied.isPrenex.insert x hσ hy
  free v hv := by
    rcases mem_freeTypeVars_insert hv with hv | hv
    · exact (hfree v hv).1
    · exact hr.free v hv
  quantified q := by
    rintro ⟨y, ρ, hy, hne, hq⟩
    rcases getElem?_insert_some hy with ⟨-, rfl⟩ | ⟨-, hy⟩
    · refine ⟨fun hmem => ?_, (hquant q hq).2⟩
      rcases mem_freeTypeVars_insert hmem with hmem | hmem
      · exact (Ty.mem_freeVars_iff_splitAll.mp hmem).2 hq
      · exact (hquant q hq).1 hmem
    · have hq' : env.Quantifies q := ⟨y, ρ, hy, hne, hq⟩
      refine ⟨fun hmem => ?_, (hr.quantified q hq').2⟩
      rcases mem_freeTypeVars_insert hmem with hmem | hmem
      · exact (hfree q hmem).2 hq'
      · exact (hr.quantified q hq').1 hmem

theorem TypeEnv.Quantifies.of_insert_mono {x q : String} {τ : Ty} (hτ : τ.Mono)
    (h : Quantifies (env.insert x τ) q) : env.Quantifies q := by
  obtain ⟨y, ρ, hy, hne, hq⟩ := h
  rcases getElem?_insert_some hy with ⟨-, rfl⟩ | ⟨-, hy⟩
  · rw [Ty.splitAll_of_mono hτ] at hq
    exact absurd hq (by simp)
  · exact ⟨y, ρ, hy, hne, hq⟩

theorem known_of_mem_insert_fresh {x v : String}
    (hv : v ∈ TypeEnv.freeTypeVars (env.insert x (.var s.fresh.1))) : Known env s s.fresh.2 v := by
  rcases TypeEnv.mem_freeTypeVars_insert hv with hv | hv
  · rw [Ty.mem_freeVars_var.mp hv]
    exact known_fresh env s
  · exact .inl hv

theorem TypeEnv.Supplied.insert_fresh (hr : env.Supplied s limit) (x : String) :
    Supplied (env.insert x (.var s.fresh.1)) s.fresh.2 limit := by
  have hprenex := hr.isPrenex.insert_var x s.fresh.1
  exact hr.of_known (NameSupply.before_fresh s) (fun hy => hprenex hy) fun v =>
    known_of_mem_insert_fresh

theorem TypeEnv.Ready.insert_fresh (hr : env.Ready s limit) (hl : s.fresh.2.count ≤ limit)
    (x : String) : Ready (env.insert x (.var s.fresh.1)) s.fresh.2 limit :=
  hr.of_known (NameSupply.before_fresh s) hl (hr.toSupplied.insert_fresh x).prenex
    (fun _ => known_of_mem_insert_fresh) fun _ hq => hq.of_insert_mono (τ := .var _) trivial

end Insert

/-! ### One run after the other -/

section Compose

variable {env env' : TypeEnv} {s s₁ s₂ : NameSupply} {limit : Int} {θ₁ θ₂ : Subst}

/-- What the second of two runs knows was known before or is issued later; in
    either case the first run does not bind it. -/
theorem Forces.known_next (h₁ : Forces env s θ₁ s₁) (hr : env.Supplied s limit)
    (hc : Carries env s θ₁ s₁ env') (hs : s₁.Before s₂) (hl : s₂.count ≤ limit) {v : String}
    (hv : Known env' s₁ s₂ v) : Known env s s₂ v ∧ θ₁[v]? = none := by
  rcases hv with hv | hv
  · exact ⟨(hc v hv).1.later hs, (hc v hv).2⟩
  · refine ⟨.inr (hv.earlier h₁.before), ?_⟩
    cases hb : θ₁[v]? with
    | none => rfl
    | some t => exact absurd hv (((h₁.within hb).1.spares hr h₁.before).not_issued hl)

theorem Forces.apart (h₁ : Forces env s θ₁ s₁) (hr : env.Supplied s limit)
    (hc : Carries env s θ₁ s₁ env') (h₂ : Forces env' s₁ θ₂ s₂) (hl : s₂.count ≤ limit) :
    Subst.Apart θ₁ θ₂ where
  range := by
    rintro x y hx ⟨t, hy, hmem⟩
    exact hx (h₁.known_next hr hc h₂.before hl ((h₂.within hy).2 x hmem)).2
  both := by
    intro x y hx hx' _
    obtain ⟨t, ht⟩ := Option.ne_none_iff_exists'.mp hx'
    exact hx (h₁.known_next hr hc h₂.before hl (h₂.within ht).1).2

/-- What two runs force, one after the other, is what one run may force. -/
theorem Forces.compose (h₁ : Forces env s θ₁ s₁) (hr : env.Supplied s limit)
    (hc : Carries env s θ₁ s₁ env') (h₂ : Forces env' s₁ θ₂ s₂) (hl : s₂.count ≤ limit) :
    Forces env s (θ₁.compose θ₂) s₂ where
  before := h₁.before.trans h₂.before
  regular := h₁.regular.compose h₂.regular (h₁.apart hr hc h₂ hl)
  within := by
    refine Subst.Within.compose h₁.regular h₂.regular ?_ ?_
    · exact h₁.within.imp fun v hv => hv.later h₂.before
    · exact h₂.within.imp fun v hv => (h₁.known_next hr hc h₂.before hl hv).1

theorem Forces.respects_compose_iff (h₁ : Forces env s θ₁ s₁) (hr : env.Supplied s limit)
    (hc : Carries env s θ₁ s₁ env') (h₂ : Forces env' s₁ θ₂ s₂) (hl : s₂.count ≤ limit)
    {f : String → Ty} :
    Subst.Respects f (θ₁.compose θ₂) ↔ Subst.Respects f θ₁ ∧ Subst.Respects f θ₂ := by
  constructor
  · intro h
    refine Subst.Respects.of_compose h₁.regular h₂.regular (fun x hx => ?_) h
    cases hb : θ₂[x]? with
    | none => rfl
    | some t => exact absurd (h₁.known_next hr hc h₂.before hl (h₂.within hb).1).2 hx
  · rintro ⟨hf, hf'⟩
    exact Subst.Respects.compose h₁.regular h₂.regular hf hf'

theorem Forces.named_next (h₁ : Forces env s θ₁ s₁) (hr : env.Supplied s limit)
    (hc : Carries env s θ₁ s₁ env') (hs : s₁.Before s₂) (hl : s₂.count ≤ limit) {τ : Ty}
    (hτ : Named env' s₁ s₂ τ) : Named env s s₂ τ :=
  ⟨hτ.1, fun v hv => (h₁.known_next hr hc hs hl (hτ.2 v hv)).1⟩

end Compose

/-! ### Unification -/

/-- Unifying types over known names forces nothing on other names. -/
theorem Forces.unify {env : TypeEnv} {s s' : NameSupply} {θ θ' : Subst} {a b : Ty}
    (h : Forces env s θ s') (ha : Named env s s' a) (hb : Named env s s' b)
    (hu : Unify.Extends θ [(a, b)] θ') : Forces env s θ' s' :=
  ⟨h.before, hu.regular, hu.within h.within
    (Unify.namesIn_cons.mpr ⟨⟨ha.2, hb.2⟩, fun _ hp => absurd hp (by simp)⟩)⟩

/-! ### The start of a run -/

/-- The environment holds schemes in which no name is a numbered `T`, and no name
    is free in one and quantified in another or the same. -/
structure TypeEnv.Hygienic (env : TypeEnv) : Prop where
  prenex : ∀ {x : String} {σ : Ty}, env[x]? = some σ → σ.Prenex
  unnumbered : ∀ {x : String} {σ : Ty}, env[x]? = some σ →
    ∀ v, v ∈ σ.freeVars ∨ v ∈ σ.splitAll.1 → ∀ n : Nat, v ≠ "T" ++ toString n
  apart : ∀ {x y : String} {σ ρ : Ty}, env[x]? = some σ → env[y]? = some ρ →
    ∀ v ∈ σ.freeVars, v ∉ ρ.splitAll.1

/-- A word that does not overflow is printed as its number. -/
theorem decimal_ofInt {n : Int} (h : 0 ≤ n) (h' : n < 2 ^ 63) :
    decimal (.ofInt n) = toString n.toNat := by
  rw [decimal, Int64.toInt_ofInt_of_le (by omega) h']
  obtain ⟨k, rfl⟩ := Int.eq_ofNat_of_zero_le h
  rfl

theorem spares_forTypes {v : String} (h : ∀ n : Nat, v ≠ "T" ++ toString n) {limit : Int}
    (hl : limit ≤ 2 ^ 63) : (NameSupply.forTypes "" 0).Spares limit v := by
  intro n hn hn' heq
  change 0 ≤ n at hn
  refine h n.toNat (heq.trans ?_)
  rw [NameSupply.nameAt, decimal_ofInt hn (by omega)]
  rfl

/-- A hygienic environment is ready for a run that starts with `T0`. -/
theorem TypeEnv.Hygienic.ready {env : TypeEnv} (h : env.Hygienic) {limit : Int}
    (hl : limit ≤ 2 ^ 63) : env.Ready (.forTypes "" 0) limit where
  start := Int.le_refl 0
  bound := hl
  prenex := h.prenex
  free v hv := by
    obtain ⟨x, σ, hx, hv⟩ := mem_freeTypeVars.mp hv
    exact spares_forTypes (h.unnumbered hx v (.inl hv)) hl
  quantified q := by
    rintro ⟨x, σ, hx, -, hq⟩
    refine ⟨fun hfree => ?_, spares_forTypes (h.unnumbered hx q (.inr hq)) hl⟩
    obtain ⟨y, ρ, hy, hq'⟩ := mem_freeTypeVars.mp hfree
    exact h.apart hy hx q hq' hq

namespace Infer

theorem before_seeds (names : List String) (s : NameSupply) : s.Before (seeds names s).2 := by
  induction names generalizing s with
  | nil => exact .refl s
  | cons x names ih => exact (NameSupply.before_fresh s).trans (ih s.fresh.2)

/-- The seeds of different names are different fresh variables. -/
theorem seeds_eq (names : List String) (s : NameSupply) :
    ∃ number : String → Int,
      (∀ x ∈ names, s.count ≤ number x ∧ number x < (seeds names s).2.count) ∧
      (∀ x ∈ names, ∀ y ∈ names, number x = number y → x = y) ∧
      ∀ x, (seeds names s).1[x]? =
        if x ∈ names then some (.var (s.nameAt (number x))) else none := by
  induction names generalizing s with
  | nil => exact ⟨fun _ => 0, by simp, by simp, by simp [seeds]⟩
  | cons y names ih =>
    obtain ⟨number, hrange, hinj, hget⟩ := ih s.fresh.2
    simp only [NameSupply.count_fresh] at hrange
    have hgrow : s.count < (seeds names s.fresh.2).2.count := (before_seeds names s.fresh.2).count
    -- the first name is numbered by the count, all others lie above it
    refine ⟨fun x => if x = y then s.count else number x, ?_, ?_, ?_⟩
    · intro x hx
      by_cases hxy : x = y
      · simp only [hxy, if_true, seeds]
        omega
      · have := hrange x (by simpa [hxy] using hx)
        simp only [hxy, if_false, seeds]
        omega
    · intro x hx z hz hxz
      by_cases hxy : x = y <;> by_cases hzy : z = y
      · rw [hxy, hzy]
      · have := hrange z (by simpa [hzy] using hz)
        simp only [hxy, hzy, if_true, if_false] at hxz
        omega
      · have := hrange x (by simpa [hxy] using hx)
        simp only [hxy, hzy, if_true, if_false] at hxz
        omega
      · simp only [hxy, hzy, if_false] at hxz
        exact hinj x (by simpa [hxy] using hx) z (by simpa [hzy] using hz) hxz
    · intro x
      rw [seeds, Std.ExtTreeMap.getElem?_insert, hget x]
      by_cases hxy : x = y
      · simp [hxy, NameSupply.fresh]
      · simp only [Std.LawfulEqCmp.compare_eq_iff_eq, Ne.symm hxy, hxy, if_false, List.mem_cons,
          false_or]
        rfl

/-- Seeds have no effect on an environment that binds all their names. -/
theorem merge_seeds_of_scoped {env : TypeEnv} {s : NameSupply} {t : Term}
    (h : ∀ x ∈ t.freeVars, x ∈ env) : (seeds t.freeVars.toList s).1.merge env = env := by
  obtain ⟨number, -, -, hget⟩ := seeds_eq t.freeVars.toList s
  refine Std.ExtTreeMap.ext_getElem? fun x => ?_
  rw [TypeEnv.getElem?_merge, hget x]
  by_cases hx : x ∈ t.freeVars
  · obtain ⟨σ, hσ⟩ := Std.ExtTreeMap.mem_iff_isSome_getElem?.mp (h x hx) |> Option.isSome_iff_exists.mp
    simp [hσ]
  · simp [hx]

/-- What the seeds add are fresh variables. -/
theorem getElem?_merge_seeds_some {env : TypeEnv} {s : NameSupply} {names : List String}
    {x : String} {σ : Ty} (h : ((seeds names s).1.merge env)[x]? = some σ) :
    env[x]? = some σ ∨ ∃ v, σ = .var v ∧ s.Issued (seeds names s).2 v := by
  obtain ⟨number, hrange, -, hget⟩ := seeds_eq names s
  rw [TypeEnv.getElem?_merge, hget x] at h
  cases henv : env[x]? with
  | some ρ => exact .inl (by simpa [henv] using h)
  | none =>
    refine .inr ?_
    by_cases hmem : x ∈ names
    · refine ⟨s.nameAt (number x), by simpa [henv, hmem, eq_comm] using h, number x, ?_⟩
      exact ⟨(hrange x hmem).1, (hrange x hmem).2, rfl⟩
    · simp [henv, hmem] at h

theorem prenex_merge_seeds {env : TypeEnv} (henv : env.Prenex) (names : List String)
    (s : NameSupply) : ((seeds names s).1.merge env).Prenex := by
  intro x σ hx
  rcases getElem?_merge_seeds_some hx with hx | ⟨v, rfl, -⟩
  · exact henv hx
  · exact Ty.Mono.prenex (t := .var v) trivial

theorem known_of_mem_merge_seeds {env : TypeEnv} {s : NameSupply} {names : List String}
    {v : String} (hv : v ∈ ((seeds names s).1.merge env).freeTypeVars) :
    Known env s (seeds names s).2 v := by
  obtain ⟨x, σ, hx, hv⟩ := TypeEnv.mem_freeTypeVars.mp hv
  rcases getElem?_merge_seeds_some hx with hx | ⟨u, rfl, hu⟩
  · exact .inl (TypeEnv.freeVars_subset hx v hv)
  · rw [Ty.mem_freeVars_var.mp hv]
    exact .inr hu

/-- What is known to a run that starts with seeds is known to the run before them. -/
theorem known_of_seeds {env : TypeEnv} {s s' : NameSupply} {names : List String} {v : String}
    (hs : (seeds names s).2.Before s')
    (hv : Known ((seeds names s).1.merge env) (seeds names s).2 s' v) : Known env s s' v :=
  hv.elim (fun hv => (known_of_mem_merge_seeds hv).later hs)
    fun hv => .inr (hv.earlier (before_seeds names s))

theorem supplied_seeds {env : TypeEnv} {s : NameSupply} {limit : Int} (hr : env.Supplied s limit)
    (names : List String) : ((seeds names s).1.merge env).Supplied (seeds names s).2 limit := by
  have hprenex := prenex_merge_seeds hr.isPrenex names s
  exact hr.of_known (before_seeds names s) (fun hx => hprenex hx) fun v => known_of_mem_merge_seeds

/-- The seeds of the free variables keep an environment ready. -/
theorem ready_seeds {env : TypeEnv} {s : NameSupply} {limit : Int} (hr : env.Ready s limit)
    (names : List String) (hl : (seeds names s).2.count ≤ limit) :
    ((seeds names s).1.merge env).Ready (seeds names s).2 limit := by
  refine hr.of_known (before_seeds names s) hl (supplied_seeds hr.toSupplied names).prenex
    (fun v => known_of_mem_merge_seeds) fun q hq => ?_
  obtain ⟨x, σ, hx, hne, hq⟩ := hq
  rcases getElem?_merge_seeds_some hx with hx | ⟨v, rfl, -⟩
  · exact ⟨x, σ, hx, hne, hq⟩
  · exact absurd hq (by simp [Ty.splitAll])

end Infer

end MiniML
