/-
  MiniML/Proofs/Typing/Uniform.lean
  =================================
  **Typing a term at many types at once** — a variable bound by `let` is used at
  many types, and so its value has to keep all of them while it is evaluated.
  `Uniform Ψ t Γ τ` types the term `t` at a whole family of types: at the type
  `τ i` when its variables may be used at the types that `Γ i` allows, for every
  index `i`.  Regions have the types that `Ψ` gives them.

  What keeps the family together is that evaluation must not allocate a region
  whose content would have different types at different indices.  Only an
  application or a `ref` can allocate, and these have one type at all indices.
  Being expansive is not the right notion here: an application may get into a
  generalised value when an argument is substituted before it is evaluated.  The
  value restriction is therefore an option: a typing is `strict` if `let` uses an
  expansive value at one type only.  Declarative typings are strict
  (`HasType.uniform`); evaluation keeps typings that need not be.
-/
import Mathlib.Logic.Function.Basic
import MiniML.Proofs.Typing.Declarative
import MiniML.Term.Binding

namespace MiniML

/-- The types at which each variable may be used. -/
abbrev Uses := String → Ty → Prop

/-- No variable may be used. -/
def Uses.none : Uses := fun _ _ => False

/-- The types of the contents of regions. -/
abbrev StoreTyping := Int64 → Ty → Prop

/-- `t` has the type `τ i` under `Γ i`, for every `i`; what may allocate has the
    same type for all `i`. -/
def Uniform (strict : Prop) (Ψ : StoreTyping) : Term → {ι : Type} → (ι → Uses) → (ι → Ty) → Prop
  | .var x, _, Γ, τ => ∀ i, Γ i x (τ i)
  | .abs x b, _, Γ, τ => ∀ i, ∃ dom cod, τ i = .arrow dom cod ∧ dom.Mono ∧
      Uniform strict Ψ b (fun _ : Unit => Function.update (Γ i) x (· = dom)) fun _ => cod
  | .app f a, _, Γ, τ => (∀ i j, τ i = τ j) ∧ ∀ i, ∃ dom,
      Uniform strict Ψ f (fun _ : Unit => Γ i) (fun _ => .arrow dom (τ i)) ∧
      Uniform strict Ψ a (fun _ : Unit => Γ i) fun _ => dom
  | .letIn x v b, ι, Γ, τ => ∃ S : ι → Ty → Prop,
      (∀ i, ∃ σ, S i σ) ∧ (∀ i σ, S i σ → σ.Mono) ∧
      (strict → v.isExpansive = true → ∀ i σ σ', S i σ → S i σ' → σ = σ') ∧
      Uniform strict Ψ v (fun p : { p : ι × Ty // S p.1 p.2 } => Γ p.1.1) (fun p => p.1.2) ∧
      Uniform strict Ψ b (fun i => Function.update (Γ i) x (S i)) τ
  | .int _, _, _, τ => ∀ i, τ i = .int
  | .nil, _, _, τ => ∀ i, ∃ elem, τ i = .list elem ∧ elem.Mono
  | .cons h t, ι, Γ, τ => ∃ elem : ι → Ty, (∀ i, τ i = .list (elem i)) ∧
      Uniform strict Ψ h Γ elem ∧ Uniform strict Ψ t Γ τ
  | .head l, _, Γ, τ => Uniform strict Ψ l Γ fun i => .list (τ i)
  | .tail l, ι, Γ, τ => (∃ elem : ι → Ty, ∀ i, τ i = .list (elem i)) ∧ Uniform strict Ψ l Γ τ
  | .add l r, _, Γ, τ | .sub l r, _, Γ, τ => (∀ i, τ i = .int) ∧
      Uniform strict Ψ l Γ (fun _ => .int) ∧ Uniform strict Ψ r Γ fun _ => .int
  | .ifZero c t e, _, Γ, τ => Uniform strict Ψ c Γ (fun _ => .int) ∧ Uniform strict Ψ t Γ τ ∧ Uniform strict Ψ e Γ τ
  | .ifEmpty c t e, ι, Γ, τ => (∃ elem : ι → Ty, Uniform strict Ψ c Γ fun i => .list (elem i)) ∧
      Uniform strict Ψ t Γ τ ∧ Uniform strict Ψ e Γ τ
  | .fix f, _, Γ, τ => Uniform strict Ψ f Γ fun i => .arrow (τ i) (τ i)
  | .unit, _, _, τ => ∀ i, τ i = .unit
  | .mkRef e, ι, Γ, τ => (∀ i j, τ i = τ j) ∧
      ∃ content : ι → Ty, (∀ i, τ i = .ref (content i)) ∧ Uniform strict Ψ e Γ content
  | .deref e, _, Γ, τ => Uniform strict Ψ e Γ fun i => .ref (τ i)
  | .assign r v, ι, Γ, τ => (∀ i, τ i = .unit) ∧
      ∃ content : ι → Ty, Uniform strict Ψ r Γ (fun i => .ref (content i)) ∧ Uniform strict Ψ v Γ content
  | .region id, _, _, τ => ∀ i, ∃ content, τ i = .ref content ∧ Ψ id content

/-! ### Fewer types, more uses -/

theorem update_imp {Γ Γ' : Uses} {S S' : Ty → Prop} (x : String)
    (hΓ : ∀ y σ, Γ y σ → Γ' y σ) (hS : ∀ σ, S σ → S' σ) :
    ∀ y σ, Function.update Γ x S y σ → Function.update Γ' x S' y σ := by
  intro y σ h
  by_cases hyx : y = x
  · subst hyx
    rw [Function.update_self] at h ⊢
    exact hS σ h
  · rw [Function.update_of_ne hyx] at h ⊢
    exact hΓ y σ h

/-- A family may be replaced by one that takes its types from it, variables and
    regions may be given more types, and the value restriction may be dropped. -/
theorem Uniform.imp {strict strict' : Prop} (hs : strict' → strict) {Ψ Ψ' : StoreTyping}
    (hΨ : ∀ i σ, Ψ i σ → Ψ' i σ) {t : Term} {ι κ : Type} {Γ : ι → Uses} {τ : ι → Ty}
    (h : Uniform strict Ψ t Γ τ) (g : κ → ι) {Γ' : κ → Uses} {τ' : κ → Ty}
    (hτ : ∀ k, τ' k = τ (g k)) (hΓ : ∀ k x σ, Γ (g k) x σ → Γ' k x σ) :
    Uniform strict' Ψ' t Γ' τ' := by
  induction t generalizing ι κ with
  | var x =>
    intro k
    rw [hτ k]
    exact hΓ k x _ (h (g k))
  | abs x b ih =>
    intro k
    obtain ⟨dom, cod, heq, hdom, hb⟩ := h (g k)
    refine ⟨dom, cod, (hτ k).trans heq, hdom, ih hb id (fun _ => rfl) fun _ => ?_⟩
    exact update_imp x (hΓ k) fun _ => id
  | app f a ihf iha =>
    refine ⟨fun k l => by rw [hτ k, hτ l]; exact h.1 _ _, fun k => ?_⟩
    obtain ⟨dom, hf, ha⟩ := h.2 (g k)
    refine ⟨dom, ihf hf id (fun _ => ?_) fun _ => hΓ k, iha ha id (fun _ => rfl) fun _ => hΓ k⟩
    rw [hτ k]
  -- the value is typed at each use of its name; a use for `k` was one for `g k`
  | letIn x v b ihv ihb =>
    obtain ⟨S, hne, hmono, hstrict, hv, hb⟩ := h
    refine ⟨fun k => S (g k), fun k => hne (g k), fun k => hmono (g k),
      fun hs' hexp k => hstrict (hs hs') hexp (g k), ?_, ?_⟩
    · exact ihv hv (fun p => ⟨(g p.1.1, p.1.2), p.2⟩) (fun _ => rfl) fun p => hΓ p.1.1
    · exact ihb hb g hτ fun k => update_imp x (hΓ k) fun _ => id
  | int | unit => exact fun k => (hτ k).trans (h (g k))
  | nil =>
    intro k
    rw [hτ k]
    exact h (g k)
  | cons a l iha ihl =>
    obtain ⟨elem, heq, ha, hl⟩ := h
    exact ⟨fun k => elem (g k), fun k => (hτ k).trans (heq (g k)), iha ha g (fun _ => rfl) hΓ,
      ihl hl g hτ hΓ⟩
  | head l ih => exact ih h g (fun k => congrArg Ty.list (hτ k)) hΓ
  | tail l ih =>
    obtain ⟨⟨elem, heq⟩, hl⟩ := h
    exact ⟨⟨fun k => elem (g k), fun k => (hτ k).trans (heq (g k))⟩, ih hl g hτ hΓ⟩
  | add l r ihl ihr =>
    exact ⟨fun k => (hτ k).trans (h.1 (g k)), ihl h.2.1 g (fun _ => rfl) hΓ,
      ihr h.2.2 g (fun _ => rfl) hΓ⟩
  | sub l r ihl ihr =>
    exact ⟨fun k => (hτ k).trans (h.1 (g k)), ihl h.2.1 g (fun _ => rfl) hΓ,
      ihr h.2.2 g (fun _ => rfl) hΓ⟩
  | ifZero c t e ihc iht ihe =>
    exact ⟨ihc h.1 g (fun _ => rfl) hΓ, iht h.2.1 g hτ hΓ, ihe h.2.2 g hτ hΓ⟩
  | ifEmpty c t e ihc iht ihe =>
    obtain ⟨⟨elem, hc⟩, ht, he⟩ := h
    exact ⟨⟨fun k => elem (g k), ihc hc g (fun _ => rfl) hΓ⟩, iht ht g hτ hΓ, ihe he g hτ hΓ⟩
  | fix f ih => exact ih h g (fun k => congrArg₂ Ty.arrow (hτ k) (hτ k)) hΓ
  | mkRef e ih =>
    obtain ⟨hconst, content, heq, he⟩ := h
    exact ⟨fun k l => by rw [hτ k, hτ l]; exact hconst _ _, fun k => content (g k),
      fun k => (hτ k).trans (heq (g k)), ih he g (fun _ => rfl) hΓ⟩
  | deref e ih => exact ih h g (fun k => congrArg Ty.ref (hτ k)) hΓ
  | assign r v ihr ihv =>
    obtain ⟨heq, content, hr, hv⟩ := h
    exact ⟨fun k => (hτ k).trans (heq (g k)), fun k => content (g k),
      ihr hr g (fun _ => rfl) hΓ, ihv hv g (fun _ => rfl) hΓ⟩
  | region id =>
    intro k
    obtain ⟨content, heq, hmem⟩ := h (g k)
    exact ⟨content, (hτ k).trans heq, hΨ id content hmem⟩

section Variants

variable {strict : Prop} {Ψ Ψ' : StoreTyping} {t : Term} {ι κ : Type} {Γ : ι → Uses} {τ : ι → Ty}

/-- A family whose types are taken from another one. -/
theorem Uniform.reindex (h : Uniform strict Ψ t Γ τ) (g : κ → ι) {Γ' : κ → Uses} {τ' : κ → Ty}
    (hτ : ∀ k, τ' k = τ (g k)) (hΓ : ∀ k x σ, Γ (g k) x σ → Γ' k x σ) : Uniform strict Ψ t Γ' τ' :=
  h.imp id (fun _ _ => id) g hτ hΓ

theorem Uniform.weaken (h : Uniform strict Ψ t Γ τ) {Γ' : ι → Uses}
    (hΓ : ∀ i x σ, Γ i x σ → Γ' i x σ) : Uniform strict Ψ t Γ' τ :=
  h.imp id (fun _ _ => id) id (fun _ => rfl) hΓ

theorem Uniform.mono (h : Uniform strict Ψ t Γ τ) (hΨ : ∀ i σ, Ψ i σ → Ψ' i σ) :
    Uniform strict Ψ' t Γ τ :=
  h.imp id hΨ id (fun _ => rfl) fun _ _ _ => id

theorem Uniform.relax (h : Uniform strict Ψ t Γ τ) : Uniform False Ψ t Γ τ :=
  h.imp False.elim (fun _ _ => id) id (fun _ => rfl) fun _ _ _ => id

end Variants

/-! ### Substitution of closed terms -/

/-- A closed term that has all types of some sets has those of any sets among them. -/
theorem Uniform.restrict {Ψ : StoreTyping} {v : Term} {ι κ : Type} {S : ι → Ty → Prop}
    (h : Uniform False Ψ v (fun _ : { p : ι × Ty // S p.1 p.2 } => Uses.none) fun p => p.1.2)
    (g : κ → ι) :
    Uniform False Ψ v (fun _ : { p : κ × Ty // S (g p.1) p.2 } => Uses.none) fun p => p.1.2 :=
  h.reindex (fun p => ⟨(g p.1.1, p.1.2), p.2⟩) (fun _ => rfl) fun _ _ _ => id

/-- **Substitution.**  A closed term that has all the types at which a variable is
    used may take its place. -/
theorem Uniform.subst {Ψ : StoreTyping} {x : String} {v t : Term} {ι : Type} {Γ : ι → Uses}
    {S : ι → Ty → Prop} {τ : ι → Ty}
    (h : Uniform False Ψ t (fun i => Function.update (Γ i) x (S i)) τ)
    (hv : Uniform False Ψ v (fun _ : { p : ι × Ty // S p.1 p.2 } => Uses.none) fun p => p.1.2) :
    Uniform False Ψ (Term.subst x v t) Γ τ := by
  induction t generalizing ι with
  | var y =>
    rw [Term.subst]
    split
    · rename_i hyx
      subst hyx
      -- the use at `i` takes the copy of `v` that was typed at the type of that use
      have hS : ∀ i, S i (τ i) := fun i => by simpa using h i
      exact hv.reindex (fun i => ⟨(i, τ i), hS i⟩) (fun _ => rfl)
        fun _ _ _ h => h.elim
    · rename_i hyx
      intro i
      simpa [Function.update_of_ne hyx] using h i
  | abs y b ih =>
    rw [Term.subst]
    split
    · rename_i hyx
      subst hyx
      intro i
      -- `y` hides `x`: the second of the two updates counts
      obtain ⟨dom, cod, heq, hdom, hb⟩ := h i
      rw [Function.update_idem] at hb
      exact ⟨dom, cod, heq, hdom, hb⟩
    · rename_i hyx
      intro i
      obtain ⟨dom, cod, heq, hdom, hb⟩ := h i
      rw [Function.update_comm (Ne.symm hyx)] at hb
      exact ⟨dom, cod, heq, hdom, ih hb (hv.restrict fun _ => i)⟩
  -- an application may be typed by another family at each use, so `v` is restricted to one
  | app f a ihf iha =>
    refine ⟨h.1, fun i => ?_⟩
    obtain ⟨dom, hf, ha⟩ := h.2 i
    exact ⟨dom, ihf hf (hv.restrict fun _ => i), iha ha (hv.restrict fun _ => i)⟩
  | letIn y w b ihw ihb =>
    obtain ⟨S', hne, hmono, -, hw, hb⟩ := h
    refine ⟨S', hne, hmono, False.elim,
      ihw hw (hv.restrict fun p : { p : ι × Ty // S' p.1 p.2 } => p.1.1), ?_⟩
    split
    · rename_i hyx
      subst hyx
      simpa only [Function.update_idem] using hb
    · rename_i hyx
      simp only [Function.update_comm (Ne.symm hyx)] at hb
      exact ihb hb hv
  | int | unit | nil | region => exact h
  | cons a l iha ihl =>
    obtain ⟨elem, heq, ha, hl⟩ := h
    exact ⟨elem, heq, iha ha hv, ihl hl hv⟩
  | head l ih => exact ih (τ := fun i => .list (τ i)) h hv
  | fix f ih => exact ih (τ := fun i => .arrow (τ i) (τ i)) h hv
  | deref e ih => exact ih (τ := fun i => .ref (τ i)) h hv
  | tail l ih => exact ⟨h.1, ih h.2 hv⟩
  | add l r ihl ihr | sub l r ihl ihr => exact ⟨h.1, ihl h.2.1 hv, ihr h.2.2 hv⟩
  | ifZero c t e ihc iht ihe => exact ⟨ihc h.1 hv, iht h.2.1 hv, ihe h.2.2 hv⟩
  | ifEmpty c t e ihc iht ihe =>
    obtain ⟨⟨elem, hc⟩, ht, he⟩ := h
    exact ⟨⟨elem, ihc hc hv⟩, iht ht hv, ihe he hv⟩
  | mkRef e ih =>
    obtain ⟨hconst, content, heq, he⟩ := h
    exact ⟨hconst, content, heq, ih he hv⟩
  | assign r w ihr ihw =>
    obtain ⟨heq, content, hr, hw⟩ := h
    exact ⟨heq, content, ihr hr hv, ihw hw hv⟩

/-! ### Declarative typings are uniform -/

/-- All regions that a term mentions have the property `P`. -/
def Term.AllRegions (P : Int64 → Prop) : Term → Prop
  | .region id => P id
  | .var _ | .int _ | .nil | .unit => True
  | .abs _ b => b.AllRegions P
  | .app f a => f.AllRegions P ∧ a.AllRegions P
  | .letIn _ v b => v.AllRegions P ∧ b.AllRegions P
  | .cons h t => h.AllRegions P ∧ t.AllRegions P
  | .head l | .tail l => l.AllRegions P
  | .add l r | .sub l r => l.AllRegions P ∧ r.AllRegions P
  | .ifZero c t e | .ifEmpty c t e => c.AllRegions P ∧ t.AllRegions P ∧ e.AllRegions P
  | .fix f => f.AllRegions P
  | .mkRef e | .deref e => e.AllRegions P
  | .assign r v => r.AllRegions P ∧ v.AllRegions P

theorem Term.allRegions_iff {P : Int64 → Prop} {t : Term} :
    t.AllRegions P ↔ ∀ id ∈ t.regions, P id := by
  unfold regions
  induction t with
  | var | int | nil | unit | region => simp [AllRegions, subterms, regionId?]
  | abs _ b ih | head b ih | tail b ih | fix b ih | mkRef b ih | deref b ih =>
    rw [AllRegions, ih, subterms, List.filterMap_cons_none rfl]
  | app _ _ ih ih' | letIn _ _ _ ih ih' | cons _ _ ih ih' | add _ _ ih ih' | sub _ _ ih ih'
  | assign _ _ ih ih' =>
    rw [AllRegions, ih, ih', subterms, List.filterMap_cons_none rfl, List.filterMap_append]
    simp only [List.mem_append, or_imp, forall_and]
  | ifZero _ _ _ ih ih' ih'' | ifEmpty _ _ _ ih ih' ih'' =>
    rw [AllRegions, ih, ih', ih'', subterms, List.filterMap_cons_none rfl, List.filterMap_append,
      List.filterMap_append]
    simp only [List.mem_append, or_imp, forall_and, and_assoc]

/-- An instance of a generalised type comes from a replacement that does to the
    environment what the given one does. -/
theorem Ty.Generalizes.exists_bind {env : TypeEnv} {τ σ ρ : Ty} {θ : String → Ty}
    (h : Generalizes env.freeTypeVars τ σ) (hτ : τ.Mono) (hθ : ∀ v, (θ v).Mono)
    (hρ : σ.HasInstance θ ρ) :
    ∃ χ : String → Ty, (∀ v, (χ v).Mono) ∧ env.instances χ = env.instances θ ∧ τ.bind χ = ρ := by
  obtain ⟨hmono, χ, hχ, rfl⟩ := (h.hasInstance_iff hτ).mp hρ
  refine ⟨fun v => if v ∈ τ.freeVars then χ v else θ v, fun v => ?_, ?_, ?_⟩
  · change Ty.Mono (if v ∈ τ.freeVars then χ v else θ v)
    split
    · rename_i hv
      exact (mono_bind_iff hτ).mp hmono v hv
    · exact hθ v
  · refine TypeEnv.instances_congr fun v hv => ?_
    split
    · rename_i hvτ
      exact hχ v hvτ hv
    · rfl
  · exact bind_congr fun v hv => if_pos hv

theorem TypeEnv.instances_insert_mono {env : TypeEnv} {θ : String → Ty} {τ : Ty} (hτ : τ.Mono)
    (hθ : ∀ v, (θ v).Mono) (x : String) :
    instances (env.insert x τ) θ = Function.update (env.instances θ) x (· = τ.bind θ) := by
  rw [instances_insert]
  congr 1
  funext ρ
  rw [Ty.hasInstance_iff_of_mono hτ]
  refine propext ⟨fun h => h.2.symm, ?_⟩
  rintro rfl
  exact ⟨hτ.bind hθ, rfl⟩

/-- **A declarative typing is uniform** in what its type variables stand for, as long
    as only one choice is made for a term that is expansive. -/
theorem HasType.uniform {env : TypeEnv} {t : Term} {τ : Ty} (h : HasType env t τ)
    {Ψ : StoreTyping} (hΨ : t.AllRegions fun id => ∀ c : Ty, c.Mono → Ψ id c)
    {ι : Type} {θ : ι → String → Ty} (hθ : ∀ i v, (θ i v).Mono)
    (hexp : t.isExpansive = true → ∀ i j : ι, i = j) {Γ : ι → Uses}
    (hΓ : ∀ i x σ, env.instances (θ i) x σ → Γ i x σ) :
    Uniform True Ψ t Γ fun i => τ.bind (θ i) := by
  induction h generalizing ι with
  | @var env x σ τ hx hi =>
    intro i
    refine hΓ i x _ ⟨σ, hx, ?_⟩
    exact (hi.bind (hθ i)).congr fun v _ => rfl
  | @abs env x b dom cod hdom _ ih =>
    intro i
    refine ⟨dom.bind (θ i), cod.bind (θ i), rfl, hdom.bind (hθ i), ?_⟩
    refine ih hΨ (θ := fun _ => θ i) (fun _ => hθ i) (fun _ _ _ => rfl) fun _ y σ hy => ?_
    rw [TypeEnv.instances_insert_mono hdom (hθ i)] at hy
    exact update_imp x (hΓ i) (fun _ => id) y σ hy
  -- an application is expansive, so that the family has one member only
  | @app env f a dom cod _ _ ihf iha =>
    have hone : ∀ i j : ι, i = j := hexp rfl
    refine ⟨fun i j => by rw [hone i j], fun i => ⟨dom.bind (θ i), ?_, ?_⟩⟩
    · exact ihf hΨ.1 (θ := fun _ : Unit => θ i) (fun _ => hθ i) (fun _ _ _ => rfl) fun _ => hΓ i
    · exact iha hΨ.2 (θ := fun _ : Unit => θ i) (fun _ => hθ i) (fun _ _ _ => rfl) fun _ => hΓ i
  | @letPoly env x v b τ σ ρ hv htv hgen _ ihv ihb =>
    refine ⟨fun i => σ.HasInstance (θ i), fun i => ⟨τ.bind (θ i), ?_⟩, fun i _ h => h.mono,
      fun _ h => absurd h (by simp [hv]), ?_, ?_⟩
    · exact (hgen.hasInstance_iff htv.mono).mpr
        ⟨htv.mono.bind (hθ i), θ i, fun _ _ _ => rfl, rfl⟩
    · -- each instance of the scheme comes with its own choice for the type variables
      choose χ hχ henv heq using fun p : { p : ι × Ty // σ.HasInstance (θ p.1) p.2 } =>
        hgen.exists_bind htv.mono (hθ p.1.1) p.2
      have := ihv hΨ.1 (θ := χ) hχ (fun h => absurd h (by simp [hv])) (Γ := fun p => Γ p.1.1)
        fun p y ρ hy => hΓ p.1.1 y ρ (henv p ▸ hy)
      simpa only [heq] using this
    · refine ihb hΨ.2 hθ (fun h => hexp (by simp [Term.isExpansive, h])) fun i y ρ hy => ?_
      rw [TypeEnv.instances_insert] at hy
      exact update_imp x (hΓ i) (fun _ => id) y ρ hy
  | @letMono env x v b τ ρ hv htv _ ihv ihb =>
    have hone : ∀ i j : ι, i = j := hexp (by simp [Term.isExpansive, hv])
    refine ⟨fun i => (· = τ.bind (θ i)), fun i => ⟨_, rfl⟩, fun i σ h => h ▸ htv.mono.bind (hθ i),
      fun _ _ i σ σ' h h' => h.trans h'.symm, ?_, ?_⟩
    · have := ihv hΨ.1 hθ (fun _ => hone) hΓ
      exact this.reindex (fun p => p.1.1) (fun p => p.2) fun _ _ _ => id
    · refine ihb hΨ.2 hθ (fun _ => hone) fun i y ρ hy => ?_
      rw [TypeEnv.instances_insert_mono htv.mono (hθ i)] at hy
      exact update_imp x (hΓ i) (fun _ => id) y ρ hy
  | int | unit => exact fun _ => rfl
  | nil helem => exact fun i => ⟨_, rfl, helem.bind (hθ i)⟩
  | @cons env a l elem _ _ iha ihl =>
    simp only [Term.isExpansive, Bool.or_eq_true, or_imp] at hexp
    exact ⟨fun i => elem.bind (θ i), fun _ => rfl, iha hΨ.1 hθ hexp.1 hΓ, ihl hΨ.2 hθ hexp.2 hΓ⟩
  | head _ ih | fix _ ih | deref _ ih => exact ih hΨ hθ hexp hΓ
  | @tail env l elem _ ih => exact ⟨⟨fun i => elem.bind (θ i), fun _ => rfl⟩, ih hΨ hθ hexp hΓ⟩
  | add _ _ ihl ihr | sub _ _ ihl ihr =>
    simp only [Term.isExpansive, Bool.or_eq_true, or_imp] at hexp
    exact ⟨fun _ => rfl, ihl hΨ.1 hθ hexp.1 hΓ, ihr hΨ.2 hθ hexp.2 hΓ⟩
  | ifZero _ _ _ ihc iht ihe =>
    simp only [Term.isExpansive, Bool.or_eq_true, or_imp] at hexp
    exact ⟨ihc hΨ.1 hθ hexp.1.1 hΓ, iht hΨ.2.1 hθ hexp.1.2 hΓ, ihe hΨ.2.2 hθ hexp.2 hΓ⟩
  | @ifEmpty env c t e elem τ _ _ _ ihc iht ihe =>
    simp only [Term.isExpansive, Bool.or_eq_true, or_imp] at hexp
    exact ⟨⟨fun i => elem.bind (θ i), ihc hΨ.1 hθ hexp.1.1 hΓ⟩, iht hΨ.2.1 hθ hexp.1.2 hΓ,
      ihe hΨ.2.2 hθ hexp.2 hΓ⟩
  | @mkRef env e content _ ih =>
    have hone : ∀ i j : ι, i = j := hexp rfl
    exact ⟨fun i j => by rw [hone i j], fun i => content.bind (θ i), fun _ => rfl,
      ih hΨ hθ (fun _ => hone) hΓ⟩
  | @assign env r v content _ _ ihr ihv =>
    simp only [Term.isExpansive, Bool.or_eq_true, or_imp] at hexp
    exact ⟨fun _ => rfl, fun i => content.bind (θ i), ihr hΨ.1 hθ hexp.1 hΓ,
      ihv hΨ.2 hθ hexp.2 hΓ⟩
  | region hc => exact fun i => ⟨_, rfl, hΨ _ (hc.bind (hθ i))⟩

end MiniML
