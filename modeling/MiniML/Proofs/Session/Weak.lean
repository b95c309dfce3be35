/-
  MiniML/Proofs/Session/Weak.lean
  ===============================
  **The types that a session keeps** — in the environment between two statements
  exactly the weak names are free, and no weak name is quantified
  (`Session.Keeps`).  A statement applies two substitutions to it: the one that
  inference finds, and the one that makes the variables that are left weak.

  The environment is not hygienic, since schemes quantify names that inference
  issues again for every statement.  Inference in it is sound if no scheme with weak
  variables quantifies a name that is issued for the statement at hand
  (`Session.Keeps.ready`); the last substitution never does harm.
-/
import MiniML.Proofs.Typing.Soundness
import MiniML.Proofs.Typing.Uniform
import MiniML.Session

namespace MiniML

open Subst

/-! ### Weak names -/

namespace Session

theorem isWeak_append (x : String) : isWeak ("_w" ++ x) = true := by
  rw [isWeak, List.isPrefixOf_iff_prefix, String.toList_append]
  exact List.prefix_append _ _

theorem head_of_isWeak {v : String} (h : isWeak v = true) : v.toList.head? = some '_' := by
  rw [isWeak, List.isPrefixOf_iff_prefix] at h
  obtain ⟨rest, hrest⟩ := h
  rw [← hrest]
  rfl

theorem isWeak_of_issued {s : NameSupply} {v : String}
    (h : (NameSupply.forTypes "" 0).Issued s v) : isWeak v = false := by
  obtain ⟨n, -, -, rfl⟩ := h
  cases hw : isWeak ((NameSupply.forTypes "" 0).nameAt n) with
  | false => rfl
  | true =>
    have hhead := head_of_isWeak hw
    rw [NameSupply.nameAt, String.toList_append] at hhead
    exact absurd hhead (by simp [NameSupply.forTypes])

/-! ### Making variables weak -/

/-- `w` replaces names with the property `P`, none of them weak, by weak ones. -/
def Weakens (P : String → Prop) (w : Subst) : Prop :=
  ∀ ⦃v : String⦄ ⦃t : Ty⦄, w[v]? = some t →
    P v ∧ isWeak v = false ∧ ∃ y, t = .var y ∧ isWeak y = true

section Weakens

variable {P : String → Prop} {w : Subst}

theorem Weakens.not_bound (hw : Weakens P w) {v : String} (hv : isWeak v = true) :
    w[v]? = none := by
  cases h : w[v]? with
  | none => rfl
  | some t =>
    have := (hw h).2.1
    simp [hv] at this

theorem Weakens.regular (hw : Weakens P w) : w.Regular where
  acyclic := by
    refine IsRank.acyclic (r := fun v => if isWeak v then 0 else 1) ?_
    rintro v u ⟨t, ht, hu⟩
    obtain ⟨-, hv, y, rfl, hy⟩ := hw ht
    rw [Ty.mem_freeVars_var.mp hu]
    simp [hv, hy]
  mono h := by
    obtain ⟨-, -, y, rfl, -⟩ := hw h
    exact trivial

/-- What a variable stands for is a weak variable, or itself if it stays. -/
theorem Weakens.mem_resolve (hw : Weakens P w) {v u : String} (hu : u ∈ (w.resolve v).freeVars) :
    isWeak u = true ∨ (u = v ∧ w[v]? = none) := by
  cases h : w[v]? with
  | none =>
    rw [resolve_of_unbound h, Ty.mem_freeVars_var] at hu
    exact .inr ⟨hu, rfl⟩
  | some t =>
    obtain ⟨-, -, y, rfl, hy⟩ := hw h
    rw [hw.regular.resolve_of_bound h, Ty.bind, resolve_of_unbound (hw.not_bound hy),
      Ty.mem_freeVars_var] at hu
    exact .inl (hu ▸ hy)

theorem Weakens.clears (hw : Weakens P w) {σ : Ty}
    (hσ : ∀ q ∈ σ.splitAll.1, ¬ P q ∧ isWeak q = false) : w.Clears σ := by
  refine .inr fun q hq => ⟨?_, fun v hv hmem => ?_⟩
  · cases h : w[q]? with
    | none => rfl
    | some t => exact absurd (hw h).1 (hσ q hq).1
  · obtain hweak | ⟨rfl, -⟩ := hw.mem_resolve hmem
    · simp [(hσ q hq).2] at hweak
    · exact (Ty.mem_freeVars_iff_splitAll.mp hv).2 hq

theorem Weakens.cleared (hw : Weakens P w) {env : TypeEnv}
    (hp : ∀ {x : String} {σ : Ty}, env[x]? = some σ → σ.Prenex)
    (hq : ∀ q, env.Quantifies q → ¬ P q ∧ isWeak q = false) : env.Cleared w := by
  intro x σ hx
  refine ⟨hp hx, ?_⟩
  by_cases hσ : σ.freeVars = []
  · exact .inl hσ
  · exact hw.clears fun q hmem => hq q ⟨x, σ, hx, hσ, hmem⟩

end Weakens

theorem weakens_weaken {P : String → Prop} (names : List String) {w : Subst}
    {supply : NameSupply} (hstem : supply.stem = "_w") (hw : Weakens P w)
    (hP : ∀ v ∈ names, P v) :
    Weakens P (weaken names w supply).1 ∧ (weaken names w supply).2.stem = "_w" ∧
      (∀ v : String, w[v]? ≠ none → (weaken names w supply).1[v]? ≠ none) ∧
      ∀ v ∈ names, isWeak v = true ∨ (weaken names w supply).1[v]? ≠ none := by
  induction names generalizing w supply with
  | nil => exact ⟨hw, hstem, fun _ => id, by simp⟩
  | cons x names ih =>
    have hP' : ∀ v ∈ names, P v := fun v hv => hP v (List.mem_cons_of_mem x hv)
    rw [weaken]
    split
    · -- `x` is weak or has its weak name already
      rename_i hskip
      obtain ⟨hw', hstem', hkeep, hall⟩ := ih hstem hw hP'
      refine ⟨hw', hstem', hkeep, List.forall_mem_cons.mpr ⟨?_, hall⟩⟩
      rw [Bool.or_eq_true, Std.ExtTreeMap.contains_eq_isSome_getElem?] at hskip
      exact hskip.imp_right fun hx => hkeep x (Option.ne_none_iff_isSome.mpr hx)
    · rename_i hskip
      rw [Bool.or_eq_true, not_or, Bool.not_eq_true] at hskip
      have hstem₁ : supply.fresh.2.stem = "_w" := hstem
      have hfresh : isWeak supply.fresh.1 = true := by
        change isWeak (supply.stem ++ _) = true
        rw [hstem]
        exact isWeak_append _
      -- `x` gets the next weak name, and the rest is done with that
      have hinsert : Weakens P (w.insert x (.var supply.fresh.1)) := by
        intro v t hv
        rcases Subst.getElem?_insert_some hv with ⟨rfl, rfl⟩ | ⟨-, hv⟩
        · exact ⟨hP _ (.head _), hskip.1, _, rfl, hfresh⟩
        · exact hw hv
      obtain ⟨hw', hstem', hkeep, hall⟩ := ih hstem₁ hinsert hP'
      refine ⟨hw', hstem', fun v hv => hkeep v ?_, List.forall_mem_cons.mpr ⟨.inr ?_, hall⟩⟩
      · rw [Std.ExtTreeMap.getElem?_insert]
        split
        · simp
        · exact hv
      · exact hkeep x (by simp)

/-! ### What is kept -/

/-- Schemes in which the free names are weak and the quantified ones are not. -/
structure Keeps (env : TypeEnv) : Prop where
  prenex : ∀ {x : String} {σ : Ty}, env[x]? = some σ → σ.Prenex
  weak : ∀ v ∈ env.freeTypeVars, isWeak v = true
  strong : ∀ q, env.Quantifies q → isWeak q = false

theorem keeps_empty : Keeps ∅ where
  prenex h := absurd h (by simp)
  weak v hv := by
    obtain ⟨x, σ, hx, -⟩ := TypeEnv.mem_freeTypeVars.mp hv
    exact absurd hx (by simp)
  strong q := by
    rintro ⟨x, σ, hx, -⟩
    exact absurd hx (by simp)

theorem Keeps.supplied {env : TypeEnv} (h : Keeps env) {limit : Int} (hl : limit ≤ 2 ^ 63) :
    env.Supplied (.forTypes "" 0) limit where
  start := Int.le_refl 0
  bound := hl
  prenex := h.prenex
  free v hv := by
    refine spares_forTypes (ne_numbered ?_) hl
    rw [head_of_isWeak (h.weak v hv)]
    decide

/-- A session may infer the type of a statement for which no name is issued that a
    scheme with weak variables quantifies. -/
theorem Keeps.ready {env : TypeEnv} (h : Keeps env) {limit : Int} (hl : limit ≤ 2 ^ 63)
    (hq : ∀ q, env.Quantifies q → (NameSupply.forTypes "" 0).Spares limit q) :
    env.Ready (.forTypes "" 0) limit where
  toSupplied := h.supplied hl
  quantified q hmem := by
    refine ⟨fun hfree => ?_, hq q hmem⟩
    have := h.weak q hfree
    simp [h.strong q hmem] at this

theorem Keeps.insert {env : TypeEnv} (h : Keeps env) {σ : Ty} (x : String) (hσ : σ.Prenex)
    (hfree : ∀ v ∈ σ.freeVars, isWeak v = true)
    (hquant : ∀ q ∈ σ.splitAll.1, isWeak q = false) : Keeps (env.insert x σ) where
  prenex hy := by
    rcases TypeEnv.getElem?_insert_some hy with ⟨-, rfl⟩ | ⟨-, hy⟩
    · exact hσ
    · exact h.prenex hy
  weak v hv := (TypeEnv.mem_freeTypeVars_insert hv).elim (hfree v) (h.weak v)
  strong q := by
    rintro ⟨y, ρ, hy, hne, hq⟩
    rcases TypeEnv.getElem?_insert_some hy with ⟨-, rfl⟩ | ⟨-, hy⟩
    · exact hquant q hq
    · exact h.strong q ⟨y, ρ, hy, hne, hq⟩

/-! ### The typing of a statement -/

/-- What a typing says about names, whatever the environment quantifies. -/
structure Inferred (env : TypeEnv) (r : Typing) : Prop where
  regular : r.subst.Regular
  mono : r.type.Mono
  /-- A weak name of the type is free in the environment. -/
  weak : ∀ v ∈ r.type.freeVars, v ∉ ((env.apply r.subst).merge r.free).freeTypeVars →
    isWeak v = false

/-- A typing in an environment that a session keeps. -/
structure Typed (env : TypeEnv) (t : Term) (r : Typing) : Prop extends Inferred env r where
  /-- Every free variable of the term is bound. -/
  bound : (env.apply r.subst).merge r.free = env.apply r.subst
  typing : HasType (env.apply r.subst) t r.type
  cleared : env.Cleared r.subst
  /-- The names that the environment quantifies are free nowhere. -/
  apart : ∀ q, (env.apply r.subst).Quantifies q → isWeak q = false ∧
    q ∉ (env.apply r.subst).freeTypeVars ∧ q ∉ r.type.freeVars

theorem Keeps.inferred {env : TypeEnv} (h : Keeps env) {fuel : Nat} {t : Term} {r : Typing}
    (hdrawn : Infer.drawn fuel env t ≤ 2 ^ 63) (hr : inferType fuel env t = .ok r) :
    Inferred env r := by
  obtain ⟨hforces, hnamed, hunbound⟩ := Infer.typing_named (h.supplied hdrawn) (Prod.ext hr rfl)
    (Int.le_refl (Infer.drawn fuel env t))
  refine ⟨hforces.regular, hnamed.1, fun v hv hnot => ?_⟩
  obtain hfree | hissued := hnamed.2 v hv
  · obtain ⟨x, σ, hx, hmem⟩ := TypeEnv.mem_freeTypeVars.mp hfree
    have hmem := mem_freeVars_apply_of_unbound (h.prenex hx) hmem (hunbound v hv)
    have hget := Infer.getElem?_merge_free (s := .forTypes "" 0) (Prod.ext hr rfl) hx
    exact absurd (TypeEnv.freeVars_subset hget v hmem) hnot
  · exact isWeak_of_issued hissued

theorem Keeps.typed {env : TypeEnv} (h : Keeps env) {fuel : Nat} {t : Term} {r : Typing}
    (hscope : ∀ x ∈ t.freeVars, x ∈ env) (hdrawn : Infer.drawn fuel env t ≤ 2 ^ 63)
    (hq : ∀ q, env.Quantifies q →
      (NameSupply.forTypes "" 0).Spares (Infer.drawn fuel env t) q)
    (hr : inferType fuel env t = .ok r) : Typed env t r := by
  have hready := h.ready hdrawn hq
  have hl := Int.le_refl (Infer.drawn fuel env t)
  obtain ⟨hmerge, htype⟩ := Infer.typing_scoped hready hscope (Prod.ext hr rfl) hl
  obtain ⟨hforces, hnamed, -⟩ := Infer.typing_named hready.toSupplied (Prod.ext hr rfl) hl
  refine ⟨h.inferred hdrawn hr, hmerge, htype, hforces.cleared hready hl, fun q hq' => ?_⟩
  have hquant := hq'.of_apply hforces.regular h.prenex
  have hnot := hready.not_known hl hquant
  exact ⟨h.strong q hquant, fun hmem => hnot (hforces.carries hready.toSupplied q hmem).1,
    fun hmem => hnot (hnamed.2 q hmem)⟩

/-! ### The scheme of a binding -/

section Scheme

variable {env : TypeEnv} {t : Term} {r : Typing} {τ ρ : Ty} {f : String → Ty}

/-- An instance of the scheme comes from a choice for the type variables that the
    environment does not notice. -/
theorem exists_choice (hτ : τ.Mono) (hf : ∀ v, (f v).Mono)
    (h : (Infer.letScheme env t τ).HasInstance f ρ) :
    ∃ χ : String → Ty, (∀ v, (χ v).Mono) ∧ env.instances χ = env.instances f ∧ τ.bind χ = ρ := by
  rw [Infer.letScheme] at h
  split at h
  · exact ⟨f, hf, rfl, ((Ty.hasInstance_iff_of_mono hτ).mp h).2⟩
  · exact (Ty.generalizes_generalize _ _).exists_bind hτ hf h

theorem unique_of_isExpansive (hτ : τ.Mono) (ht : t.isExpansive = true)
    (h : (Infer.letScheme env t τ).HasInstance f ρ) : ρ = τ.bind f := by
  rw [Infer.letScheme, if_pos ht, Ty.hasInstance_iff_of_mono hτ] at h
  exact h.2.symm

theorem hasInstance_letScheme (hτ : τ.Mono) (hf : ∀ v, (f v).Mono) :
    (Infer.letScheme env t τ).HasInstance f (τ.bind f) := by
  rw [Infer.letScheme]
  split
  · exact (Ty.hasInstance_iff_of_mono hτ).mpr ⟨hτ.bind hf, rfl⟩
  · exact ((Ty.generalizes_generalize _ _).hasInstance_iff hτ).mpr
      ⟨hτ.bind hf, f, fun _ _ _ => rfl, rfl⟩

end Scheme

/-! ### The environment after a statement -/

theorem mem_envVars {env : TypeEnv} {v : String} : v ∈ envVars env ↔ v ∈ env.freeTypeVars := by
  rw [envVars, List.mem_flatMap, TypeEnv.mem_freeTypeVars]
  simp only [Prod.exists, Std.ExtTreeMap.mem_toList_iff_getElem?_eq_some]

section Assign

variable {s : Session} {st : Statement} {r : Typing}

/-- The scheme of a statement that is a binding, before its variables are made weak. -/
def schemeOf (s : Session) (st : Statement) (r : Typing) : Ty :=
  Infer.letScheme ((s.env.apply r.subst).merge r.free) st.term r.type

/-- The variables that a statement leaves free. -/
def leftFree (s : Session) (st : Statement) (r : Typing) : List String :=
  envVars (s.env.apply r.subst) ++
    match st.binder with
    | some _ => (s.schemeOf st r).freeVars
    | none => []

/-- The renaming that makes these variables weak. -/
def weakening (s : Session) (st : Statement) (r : Typing) : Subst :=
  (weaken (s.leftFree st r) ∅ s.weak).1

theorem env_assign (s : Session) (st : Statement) (r : Typing) :
    (s.assign st r).env = match st.binder with
      | some x => ((s.env.apply r.subst).apply (s.weakening st r)).insert x
          ((s.weakening st r).apply (s.schemeOf st r))
      | none => (s.env.apply r.subst).apply (s.weakening st r) := by
  rw [assign, weakening, leftFree]
  cases st.binder with
  | some x => rfl
  | none => simp only [List.append_nil]

theorem weak_assign (s : Session) (st : Statement) (r : Typing) :
    (s.assign st r).weak = (weaken (s.leftFree st r) ∅ s.weak).2 := by
  rw [assign, leftFree]
  cases st.binder with
  | some x => rfl
  | none => simp only [List.append_nil]

theorem mem_leftFree {v : String} : v ∈ s.leftFree st r ↔
    v ∈ (s.env.apply r.subst).freeTypeVars ∨ st.binder ≠ none ∧ v ∈ (s.schemeOf st r).freeVars := by
  rw [leftFree, List.mem_append, mem_envVars]
  cases st.binder <;> simp

theorem weakens_weakening (s : Session) (st : Statement) (r : Typing) (hstem : s.weak.stem = "_w") :
    Weakens (· ∈ s.leftFree st r) (s.weakening st r) ∧ (s.assign st r).weak.stem = "_w" ∧
      ∀ v ∈ s.leftFree st r, isWeak v = true ∨ (s.weakening st r)[v]? ≠ none := by
  obtain ⟨hw, hstem', -, hall⟩ := weakens_weaken (P := (· ∈ s.leftFree st r)) (w := ∅)
    (s.leftFree st r) hstem (fun _ _ h => absurd h (by simp)) fun _ => id
  rw [weak_assign]
  exact ⟨hw, hstem', hall⟩

theorem Weakens.isWeak_of_mem {P : String → Prop} {w : Subst} (hw : Weakens P w) {σ : Ty}
    (hσ : σ.Prenex) (hall : ∀ v ∈ σ.freeVars, isWeak v = true ∨ w[v]? ≠ none) {u : String}
    (hu : u ∈ (w.apply σ).freeVars) : isWeak u = true := by
  have hwithin : w.Within fun v => isWeak v = true ∨ w[v]? ≠ none := by
    intro v t hv
    obtain ⟨-, -, y, rfl, hy⟩ := hw hv
    refine ⟨.inr (by simp [hv]), fun z hz => .inl ?_⟩
    rwa [Ty.mem_freeVars_var.mp hz]
  obtain ⟨hnone, hweak⟩ := hw.regular.mem_freeVars_apply hσ hwithin hall hu
  exact hweak.resolve_right fun hne => hne hnone

/-- **The environment after a statement is again one that a session keeps**, whether
    something was captured or not. -/
theorem Inferred.keeps (hr : Inferred s.env r) (h : Keeps s.env) (hstem : s.weak.stem = "_w") :
    Keeps (s.assign st r).env := by
  obtain ⟨hw, -, hall⟩ := weakens_weakening s st r hstem
  have hp₁ : ∀ {x : String} {ρ : Ty}, (s.env.apply r.subst)[x]? = some ρ → ρ.Prenex := by
    intro x ρ hx
    obtain ⟨σ, hσ, rfl⟩ := TypeEnv.getElem?_apply_some hx
    exact hr.regular.prenex_apply (h.prenex hσ)
  -- substitution keeps the quantifiers of a scheme, so a capture can take free names away
  -- but adds none, and quantifies nothing new
  have hold : Keeps ((s.env.apply r.subst).apply (s.weakening st r)) := by
    refine ⟨fun hx => ?_, fun u hu => ?_, fun q hq => ?_⟩
    · obtain ⟨ρ, hρ, rfl⟩ := TypeEnv.getElem?_apply_some hx
      exact hw.regular.prenex_apply (hp₁ hρ)
    · obtain ⟨x, ρ', hx, hu⟩ := TypeEnv.mem_freeTypeVars.mp hu
      obtain ⟨ρ, hρ, rfl⟩ := TypeEnv.getElem?_apply_some hx
      refine hw.isWeak_of_mem (hp₁ hρ) (fun v hv => hall v (mem_leftFree.mpr (.inl ?_))) hu
      exact TypeEnv.freeVars_subset hρ v hv
    · exact h.strong q ((hq.of_apply hw.regular hp₁).of_apply hr.regular h.prenex)
  rw [env_assign]
  cases hb : st.binder with
  | none => exact hold
  | some x =>
    have hprenex : (s.schemeOf st r).Prenex := Infer.prenex_letScheme hr.mono
    refine hold.insert x (hw.regular.prenex_apply hprenex) (fun u hu => ?_) fun q hq => ?_
    · refine hw.isWeak_of_mem hprenex (fun v hv => hall v (mem_leftFree.mpr (.inr ⟨?_, hv⟩))) hu
      simp [hb]
    · rw [hw.regular.splitAll_apply hprenex] at hq
      obtain ⟨hq, hnot⟩ := Infer.mem_quantified_letScheme hr.mono hq
      exact hr.weak q hq hnot

/-- `w` makes the session's environment after a statement out of the one that
    inference leaves. -/
structure Assigns (s : Session) (st : Statement) (r : Typing) (w : Subst) : Prop where
  regular : w.Regular
  cleared : (s.env.apply r.subst).Cleared w
  env : (s.assign st r).env = match st.binder with
    | some x => ((s.env.apply r.subst).apply w).insert x
        (w.apply (Infer.letScheme (s.env.apply r.subst) st.term r.type))
    | none => (s.env.apply r.subst).apply w
  scheme : ∀ x, st.binder = some x →
    w.Clears (Infer.letScheme (s.env.apply r.subst) st.term r.type)

/-- No quantifier gets in the way when the variables are made weak. -/
theorem Typed.assigns (h : Typed s.env st.term r) (hstem : s.weak.stem = "_w") :
    Assigns s st r (s.weakening st r) := by
  obtain ⟨hw, -, -⟩ := weakens_weakening s st r hstem
  have hscheme : s.schemeOf st r = Infer.letScheme (s.env.apply r.subst) st.term r.type := by
    rw [schemeOf, h.bound]
  refine ⟨hw.regular, ?_, ?_, fun x hx => ?_⟩
  · refine hw.cleared (fun hx => ?_) fun q hq => ?_
    · obtain ⟨σ, hσ, rfl⟩ := TypeEnv.getElem?_apply_some hx
      exact h.regular.prenex_apply (h.cleared hσ).1
    · obtain ⟨hweak, hfree, htype⟩ := h.apart q hq
      refine ⟨fun hmem => ?_, hweak⟩
      exact (mem_leftFree.mp hmem).elim hfree fun hmem =>
        htype (Infer.mem_freeVars_letScheme hmem.2)
  · rw [env_assign, hscheme]
  · rw [← hscheme]
    refine hw.clears fun q hq => ?_
    obtain ⟨hqτ, hqenv⟩ := Infer.mem_quantified_letScheme h.mono hq
    refine ⟨fun hmem => ?_, h.weak q hqτ hqenv⟩
    rcases mem_leftFree.mp hmem with hfree | ⟨-, hfree⟩
    · exact hqenv (by rwa [h.bound])
    · exact (Ty.mem_freeVars_iff_splitAll.mp hfree).2 hq

end Assign

end Session

end MiniML
