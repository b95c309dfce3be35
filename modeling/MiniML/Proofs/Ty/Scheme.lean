/-
  MiniML/Proofs/Ty/Scheme.lean
  ============================
  **Schemes and their instances** — a scheme is a chain of quantifiers over a
  monotype.  `σ.HasInstance f τ` says that the monotype `τ` is an instance of `σ`
  when the free variables of `σ` stand for what `f` gives them; the quantified
  variables may stand for anything.

  The sets of instances are what makes schemes easy to compare: renaming
  quantified variables does not change them, and applying a substitution to a
  scheme, which renames nothing, acts on them as it should whenever no quantifier
  gets in its way (`hasInstance_apply`).
-/
import Mathlib.Logic.Function.Basic
import MiniML.Proofs.Name.Fresh
import MiniML.Proofs.Ty.Acyclic
import MiniML.Ty.Env

namespace MiniML.Ty

/-- The type below the leading quantifiers has no further ones. -/
def Prenex (σ : Ty) : Prop := σ.splitAll.2.Mono

/-- `τ` is a monotype that `σ` can be used at when its free variables stand for
    what `f` gives them. -/
def HasInstance (σ : Ty) (f : String → Ty) (τ : Ty) : Prop :=
  τ.Mono ∧ ∃ χ : String → Ty, (∀ v ∈ σ.freeVars, χ v = f v) ∧ σ.splitAll.2.bind χ = τ

/-- `σ` quantifies `τ` over exactly its variables that are not in `fixed`, in some
    order. -/
def Generalizes (fixed : NameSet) (τ σ : Ty) : Prop :=
  ∃ names : List String, names.Nodup ∧ (∀ v, v ∈ names ↔ v ∈ τ.freeVars ∧ v ∉ fixed) ∧
    σ = allMany names τ

/-! ### Quantifiers -/

theorem splitAll_of_mono {t : Ty} (h : t.Mono) : t.splitAll = ([], t) := by
  cases t with
  | all v b => exact h.elim
  | _ => rfl

theorem splitAll_allMany {t : Ty} (h : t.Mono) (names : List String) :
    (allMany names t).splitAll = (names, t) := by
  induction names with
  | nil => exact splitAll_of_mono h
  | cons v names ih =>
    change (Ty.all v (allMany names t)).splitAll = _
    rw [splitAll, ih]

theorem Mono.prenex {t : Ty} (h : t.Mono) : t.Prenex := by
  rw [Prenex, splitAll_of_mono h]
  exact h

theorem prenex_allMany {t : Ty} (h : t.Mono) (names : List String) :
    (allMany names t).Prenex := by
  rw [Prenex, splitAll_allMany h]
  exact h

theorem mem_freeVars_allMany {names : List String} {t : Ty} {v : String} :
    v ∈ (allMany names t).freeVars ↔ v ∈ t.freeVars ∧ v ∉ names := by
  induction names with
  | nil => simp [allMany]
  | cons w names ih =>
    change v ∈ (Ty.all w (allMany names t)).freeVars ↔ _
    rw [mem_freeVars_all, ih, List.mem_cons, not_or, and_assoc, and_comm (a := v ∉ names)]

/-- The free variables of a scheme are those of its body that no quantifier binds. -/
theorem mem_freeVars_iff_splitAll {σ : Ty} {v : String} :
    v ∈ σ.freeVars ↔ v ∈ σ.splitAll.2.freeVars ∧ v ∉ σ.splitAll.1 := by
  rw [← mem_freeVars_allMany, allMany_splitAll]

theorem nodup_freeVars (t : Ty) : t.freeVars.Nodup := by
  induction t with
  | var x => exact List.nodup_singleton x
  | arrow a b iha ihb =>
    refine List.nodup_append.mpr ⟨iha, ihb.filter _, ?_⟩
    intro x hx y hy hxy
    have := (List.mem_filter.mp hy).2
    simp only [decide_eq_true_eq] at this
    exact this (hxy ▸ hx)
  | int | unit => exact List.nodup_nil
  | list e ih => exact ih
  | ref c ih => exact ih
  | all v b ih => exact ih.filter _

/-! ### Instances -/

theorem HasInstance.mono {σ τ : Ty} {f : String → Ty} (h : σ.HasInstance f τ) : τ.Mono := h.1

/-- Instances depend on what the free variables stand for only. -/
theorem HasInstance.congr {σ τ : Ty} {f g : String → Ty} (h : σ.HasInstance f τ)
    (hfg : ∀ v ∈ σ.freeVars, f v = g v) : σ.HasInstance g τ := by
  obtain ⟨hτ, χ, hχ, heq⟩ := h
  exact ⟨hτ, χ, fun v hv => (hχ v hv).trans (hfg v hv), heq⟩

/-- A monotype has itself as its only instance, up to what its variables stand for. -/
theorem hasInstance_iff_of_mono {σ τ : Ty} {f : String → Ty} (h : σ.Mono) :
    σ.HasInstance f τ ↔ τ.Mono ∧ σ.bind f = τ := by
  rw [HasInstance, splitAll_of_mono h]
  refine and_congr_right fun _ => ⟨?_, fun heq => ⟨f, fun _ _ => rfl, heq⟩⟩
  rintro ⟨χ, hχ, heq⟩
  rw [← heq]
  exact (bind_congr hχ).symm

/-- The instances of a generalised type leave the fixed variables alone and move
    the others at will. -/
theorem Generalizes.hasInstance_iff {fixed : NameSet} {τ σ ρ : Ty} {f : String → Ty}
    (h : Generalizes fixed τ σ) (hτ : τ.Mono) :
    σ.HasInstance f ρ ↔
      ρ.Mono ∧ ∃ χ : String → Ty, (∀ v ∈ τ.freeVars, v ∈ fixed → χ v = f v) ∧ τ.bind χ = ρ := by
  obtain ⟨names, -, hnames, rfl⟩ := h
  rw [HasInstance, splitAll_allMany hτ]
  simp only [mem_freeVars_allMany, hnames, and_imp, not_and, not_not]
  refine and_congr_right fun _ => exists_congr fun χ => and_congr_left fun _ => ?_
  exact ⟨fun h v hv hf => h v hv fun _ => hf, fun h v hv hf => h v hv (hf hv)⟩

theorem Generalizes.prenex {fixed : NameSet} {τ σ : Ty} (h : Generalizes fixed τ σ)
    (hτ : τ.Mono) : σ.Prenex := by
  obtain ⟨names, -, -, rfl⟩ := h
  exact prenex_allMany hτ names

theorem Generalizes.mem_freeVars_iff {fixed : NameSet} {τ σ : Ty} (h : Generalizes fixed τ σ)
    {v : String} : v ∈ σ.freeVars ↔ v ∈ τ.freeVars ∧ v ∈ fixed := by
  obtain ⟨names, -, hnames, rfl⟩ := h
  rw [mem_freeVars_allMany, hnames]
  simp only [not_and, not_not]
  exact ⟨fun h => ⟨h.1, h.2 h.1⟩, fun h => ⟨h.1, fun _ => h.2⟩⟩

theorem Generalizes.mem_quantified_iff {fixed : NameSet} {τ σ : Ty} (h : Generalizes fixed τ σ)
    (hτ : τ.Mono) {q : String} : q ∈ σ.splitAll.1 ↔ q ∈ τ.freeVars ∧ q ∉ fixed := by
  obtain ⟨names, -, hnames, rfl⟩ := h
  rw [splitAll_allMany hτ, hnames]

/-- `generalize` generalises. -/
theorem generalizes_generalize (fixed : NameSet) (t : Ty) :
    Generalizes fixed t (t.generalize fixed) := by
  refine ⟨_, (nodup_freeVars t).filter _, fun v => ?_, rfl⟩
  rw [List.mem_filter, Bool.not_eq_true', Std.ExtTreeSet.mem_iff_contains, Bool.not_eq_true]

end MiniML.Ty

/-! ### Substitutions on schemes -/

namespace MiniML.Subst

/-- No quantifier of `σ` gets in the way of `s`: either there is nothing to
    replace, or `s` neither binds a quantified variable nor puts one in the place
    of a free one. -/
def Clears (s : Subst) (σ : Ty) : Prop :=
  σ.freeVars = [] ∨
    ∀ q ∈ σ.splitAll.1, s[q]? = none ∧ ∀ v ∈ σ.freeVars, q ∉ (s.resolve v).freeVars

/-- A type without bound variables stays as it is. -/
theorem apply_eq_self {s : Subst} {t : Ty} (h : ∀ v ∈ t.freeVars, s[v]? = none) :
    s.apply t = t := by
  induction t generalizing s with
  | var x => exact resolve_of_unbound (h x (by simp))
  | arrow a b iha ihb =>
    rw [apply, iha fun v hv => h v (by simp [hv]), ihb fun v hv => h v (by simp [hv])]
  | list e ih => rw [apply, ih h]
  | ref c ih => rw [apply, ih h]
  | all q b ih =>
    rw [apply, ih]
    intro v hv
    by_cases hvq : v = q
    · simp [hvq]
    · rw [getElem?_erase_of_ne hvq]
      exact h v (by simp [hv, hvq])
  | int => rw [apply]
  | unit => rw [apply]

/-- The substitution without its bindings for the listed names. -/
def without (s : Subst) (names : List String) : Subst := names.foldl (fun s q => s.erase q) s

theorem getElem?_without (s : Subst) (names : List String) (v : String) :
    (s.without names)[v]? = if v ∈ names then none else s[v]? := by
  induction names generalizing s with
  | nil => simp [without]
  | cons q names ih =>
    change (without (s.erase q) names)[v]? = _
    rw [ih (s.erase q)]
    by_cases hv : v = q
    · simp [hv]
    · simp [hv, getElem?_erase_of_ne hv]

variable {s : Subst} {σ : Ty}

theorem getElem?_without_some {names : List String} {v : String} {t : Ty}
    (h : (s.without names)[v]? = some t) : s[v]? = some t := by
  rw [getElem?_without] at h
  split at h
  · exact absurd h (by simp)
  · exact h

theorem without_eq_self {names : List String} (h : ∀ q ∈ names, s[q]? = none) :
    s.without names = s := by
  refine Std.ExtTreeMap.ext_getElem? fun v => ?_
  rw [getElem?_without]
  split
  · rename_i hv
    exact (h v hv).symm
  · rfl

theorem BindsMono.without (hs : s.BindsMono) (names : List String) : (s.without names).BindsMono :=
  fun _ _ h => hs (getElem?_without_some h)

theorem Regular.without (hs : s.Regular) (names : List String) : (s.without names).Regular where
  acyclic := by
    obtain ⟨r, hr⟩ := hs.acyclic.exists_rank
    exact IsRank.acyclic (r := r) fun ⟨t, ht, hy⟩ => hr ⟨t, getElem?_without_some ht, hy⟩
  mono h := hs.mono (getElem?_without_some h)

/-- A substitution leaves the quantifiers of a scheme alone and resolves its body, the
    quantified names excepted; it does not ask what it puts in their scope. -/
theorem apply_eq_allMany (s : Subst) (σ : Ty) :
    s.apply σ = Ty.allMany σ.splitAll.1 ((s.without σ.splitAll.1).apply σ.splitAll.2) := by
  induction σ generalizing s with
  | all q b ih =>
    rw [apply, ih]
    rfl
  | _ => rfl

/-- Whatever the substitution captures, it moves no quantifier and adds none. -/
theorem BindsMono.splitAll_apply (hs : s.BindsMono) (hσ : σ.Prenex) :
    (s.apply σ).splitAll = (σ.splitAll.1, (s.without σ.splitAll.1).apply σ.splitAll.2) := by
  rw [apply_eq_allMany, Ty.splitAll_allMany ((hs.without _).mono_apply hσ)]

theorem BindsMono.prenex_apply (hs : s.BindsMono) (hσ : σ.Prenex) : (s.apply σ).Prenex := by
  rw [Ty.Prenex, hs.splitAll_apply hσ]
  exact (hs.without _).mono_apply hσ

theorem Regular.splitAll_apply (hs : s.Regular) (hσ : σ.Prenex) :
    (s.apply σ).splitAll = (σ.splitAll.1, (s.without σ.splitAll.1).apply σ.splitAll.2) :=
  hs.bindsMono.splitAll_apply hσ

theorem Regular.prenex_apply (hs : s.Regular) (hσ : σ.Prenex) : (s.apply σ).Prenex :=
  hs.bindsMono.prenex_apply hσ

/-- Captured or not, what is free in the end is unbound, and new only if a binding has
    it. -/
theorem Regular.mem_freeVars_apply (hs : s.Regular) (hσ : σ.Prenex) {P : String → Prop}
    (hP : s.Within P) (hfree : ∀ v ∈ σ.freeVars, P v) {u : String}
    (hu : u ∈ (s.apply σ).freeVars) : s[u]? = none ∧ P u := by
  rw [apply_eq_allMany, Ty.mem_freeVars_allMany, apply_eq_bind _ hσ, Ty.mem_freeVars_bind hσ] at hu
  obtain ⟨⟨v, hv, hu⟩, hq⟩ := hu
  have hs' := hs.without σ.splitAll.1
  constructor
  · have hnone := hs'.not_bound_of_mem_resolve v u hu
    rwa [getElem?_without, if_neg hq] at hnone
  · have hP' : (s.without σ.splitAll.1).Within fun v => v ∈ σ.splitAll.1 ∨ P v := by
      intro x t hx
      obtain ⟨hPx, hPt⟩ := hP (getElem?_without_some hx)
      exact ⟨.inr hPx, fun y hy => .inr (hPt y hy)⟩
    have hPv : v ∈ σ.splitAll.1 ∨ P v := by
      by_cases hvq : v ∈ σ.splitAll.1
      · exact .inl hvq
      · exact .inr (hfree v (Ty.mem_freeVars_iff_splitAll.mpr ⟨hv, hvq⟩))
    exact (hs'.mem_resolve hP' hPv u hu).resolve_left hq

/-- An unbound variable that is free stays free. -/
theorem mem_freeVars_apply_of_unbound (hσ : σ.Prenex) {v : String} (hv : v ∈ σ.freeVars)
    (hnone : s[v]? = none) : v ∈ (s.apply σ).freeVars := by
  obtain ⟨hv, hq⟩ := Ty.mem_freeVars_iff_splitAll.mp hv
  rw [apply_eq_allMany, Ty.mem_freeVars_allMany, apply_eq_bind _ hσ, Ty.mem_freeVars_bind hσ]
  refine ⟨⟨v, hv, ?_⟩, hq⟩
  rw [resolve_of_unbound (by rw [getElem?_without, if_neg hq, hnone])]
  simp

/-- A scheme that is cleared keeps its quantifiers, and its body is resolved. -/
theorem Clears.apply_eq (h : s.Clears σ) (hσ : σ.Prenex) :
    s.apply σ = Ty.allMany σ.splitAll.1
      (σ.splitAll.2.bind fun v => if v ∈ σ.splitAll.1 then .var v else s.resolve v) := by
  rcases h with h | h
  · rw [apply_eq_self (by simp [h])]
    have hbody : σ.splitAll.2.bind
        (fun v => if v ∈ σ.splitAll.1 then .var v else s.resolve v) = σ.splitAll.2 := by
      refine Ty.bind_eq_self fun v hv => if_pos ?_
      by_contra hq
      have := Ty.mem_freeVars_iff_splitAll.mpr ⟨hv, hq⟩
      simp [h] at this
    rw [hbody, Ty.allMany_splitAll]
  · rw [apply_eq_allMany, without_eq_self fun q hq => (h q hq).1, apply_eq_bind s hσ]
    refine congrArg _ (Ty.bind_congr fun v _ => ?_)
    split
    · rename_i hv
      exact resolve_of_unbound (h v hv).1
    · rfl

/-- The body of a cleared scheme under the substitution. -/
theorem Clears.splitAll_apply (hs : s.Regular) (h : s.Clears σ) (hσ : σ.Prenex) :
    (s.apply σ).splitAll = (σ.splitAll.1,
      σ.splitAll.2.bind fun v => if v ∈ σ.splitAll.1 then .var v else s.resolve v) := by
  rw [h.apply_eq hσ, Ty.splitAll_allMany]
  refine Ty.Mono.bind hσ fun v => ?_
  split
  · exact trivial
  · exact hs.mono_resolve v

/-- What the substitution puts in the place of free variables is not quantified. -/
theorem Clears.not_quantified (h : s.Clears σ) {v u : String} (hv : v ∈ σ.freeVars)
    (hu : u ∈ (s.resolve v).freeVars) : u ∉ σ.splitAll.1 := by
  rcases h with h | h
  · simp [h] at hv
  · intro hq
    exact (h u hq).2 v hv hu

theorem Clears.mem_freeVars_apply (h : s.Clears σ) (hσ : σ.Prenex) {u : String} :
    u ∈ (s.apply σ).freeVars ↔ ∃ v ∈ σ.freeVars, u ∈ (s.resolve v).freeVars := by
  rw [h.apply_eq hσ, Ty.mem_freeVars_allMany, Ty.mem_freeVars_bind hσ]
  constructor
  · rintro ⟨⟨v, hv, hu⟩, hq⟩
    split at hu
    · rename_i hvq
      exact absurd (Ty.mem_freeVars_var.mp hu ▸ hvq) hq
    · rename_i hvq
      exact ⟨v, Ty.mem_freeVars_iff_splitAll.mpr ⟨hv, hvq⟩, hu⟩
  · rintro ⟨v, hv, hu⟩
    have hv' := Ty.mem_freeVars_iff_splitAll.mp hv
    refine ⟨⟨v, hv'.1, ?_⟩, h.not_quantified hv hu⟩
    rwa [if_neg hv'.2]

/-- **Substitution and instances.**  The instances of a scheme under a substitution
    are those of the scheme when its free variables stand for what they resolve to. -/
theorem Clears.hasInstance_apply (hs : s.Regular) (h : s.Clears σ) (hσ : σ.Prenex)
    {f : String → Ty} {τ : Ty} :
    (s.apply σ).HasInstance f τ ↔ σ.HasInstance (fun v => (s.resolve v).bind f) τ := by
  have hbody := congrArg Prod.snd (h.splitAll_apply hs hσ)
  simp only at hbody
  rw [Ty.HasInstance, Ty.HasInstance, hbody]
  refine and_congr_right fun _ => ?_
  constructor
  · rintro ⟨χ, hχ, rfl⟩
    refine ⟨fun v => if v ∈ σ.splitAll.1 then χ v else (s.resolve v).bind χ, ?_, ?_⟩
    · intro v hv
      refine (if_neg (Ty.mem_freeVars_iff_splitAll.mp hv).2).trans ?_
      exact Ty.bind_congr fun u hu => hχ u ((h.mem_freeVars_apply hσ).mpr ⟨v, hv, hu⟩)
    · rw [Ty.bind_bind hσ]
      refine Ty.bind_congr fun v _ => ?_
      split <;> rfl
  · rintro ⟨χ, hχ, rfl⟩
    refine ⟨fun u => if u ∈ σ.splitAll.1 then χ u else f u, ?_, ?_⟩
    · intro u hu
      obtain ⟨v, hv, hu⟩ := (h.mem_freeVars_apply hσ).mp hu
      exact if_neg (h.not_quantified hv hu)
    · rw [Ty.bind_bind hσ]
      refine Ty.bind_congr fun v hv => ?_
      by_cases hq : v ∈ σ.splitAll.1
      · simp [hq, Ty.bind]
      · have hv' := Ty.mem_freeVars_iff_splitAll.mpr ⟨hv, hq⟩
        rw [if_neg hq, hχ v hv']
        exact Ty.bind_congr fun u hu => if_neg (h.not_quantified hv' hu)

end MiniML.Subst

/-! ### Environments -/

namespace MiniML.TypeEnv

/-- The types at which each variable of the environment may be used when the free
    type variables stand for what `f` gives them. -/
def instances (env : TypeEnv) (f : String → Ty) (x : String) (τ : Ty) : Prop :=
  ∃ σ, env[x]? = some σ ∧ σ.HasInstance f τ

theorem mem_freeTypeVars {env : TypeEnv} {v : String} :
    v ∈ env.freeTypeVars ↔ ∃ (x : String) (σ : Ty), env[x]? = some σ ∧ v ∈ σ.freeVars := by
  have hfold : ∀ (bs : List (String × Ty)) (names : NameSet),
      v ∈ bs.foldl (fun names b => names ∪ NameSet.ofNames b.2.freeVars) names ↔
        v ∈ names ∨ ∃ b ∈ bs, v ∈ b.2.freeVars := by
    intro bs
    induction bs with
    | nil => simp
    | cons b bs ih => intro names; simp [ih, or_assoc]
  rw [freeTypeVars, Std.ExtTreeMap.foldl_eq_foldl_toList, hfold]
  simp only [Std.ExtTreeSet.not_mem_empty, false_or, Prod.exists]
  exact exists_congr fun x => exists_congr fun σ =>
    and_congr_left fun _ => Std.ExtTreeMap.mem_toList_iff_getElem?_eq_some

theorem freeVars_subset {env : TypeEnv} {x : String} {σ : Ty} (h : env[x]? = some σ) :
    ∀ v ∈ σ.freeVars, v ∈ env.freeTypeVars :=
  fun _ hv => mem_freeTypeVars.mpr ⟨x, σ, h, hv⟩

theorem getElem?_insert_some {env : TypeEnv} {x y : String} {σ ρ : Ty}
    (h : (env.insert x σ)[y]? = some ρ) : (y = x ∧ ρ = σ) ∨ (y ≠ x ∧ env[y]? = some ρ) :=
  Subst.getElem?_insert_some h

theorem mem_freeTypeVars_insert {env : TypeEnv} {x v : String} {σ : Ty}
    (h : v ∈ freeTypeVars (env.insert x σ)) : v ∈ σ.freeVars ∨ v ∈ env.freeTypeVars := by
  obtain ⟨y, ρ, hy, hv⟩ := mem_freeTypeVars.mp h
  rcases getElem?_insert_some hy with ⟨-, rfl⟩ | ⟨-, hy⟩
  · exact .inl hv
  · exact .inr (freeVars_subset hy v hv)

/-- Adding a variable replaces its instances by those of its scheme. -/
theorem instances_insert (env : TypeEnv) (x : String) (σ : Ty) (f : String → Ty) :
    instances (env.insert x σ) f = Function.update (env.instances f) x (σ.HasInstance f) := by
  funext y τ
  by_cases hyx : y = x
  · subst hyx
    simp [instances]
  · simp [instances, Std.ExtTreeMap.getElem?_insert, Ne.symm hyx, Function.update_of_ne hyx]

theorem instances_congr {env : TypeEnv} {f g : String → Ty}
    (h : ∀ v ∈ env.freeTypeVars, f v = g v) : env.instances f = env.instances g := by
  funext x τ
  refine propext (exists_congr fun σ => and_congr_right fun hx => ?_)
  have hfg : ∀ v ∈ σ.freeVars, f v = g v := fun v hv => h v (freeVars_subset hx v hv)
  exact ⟨fun hi => hi.congr hfg, fun hi => hi.congr fun v hv => (hfg v hv).symm⟩

/-- No quantifier of the environment gets in the way of `s`. -/
def Cleared (env : TypeEnv) (s : Subst) : Prop :=
  ∀ ⦃x : String⦄ ⦃σ : Ty⦄, env[x]? = some σ → σ.Prenex ∧ s.Clears σ

variable {env : TypeEnv} {s : Subst}

theorem getElem?_apply_some {x : String} {ρ : Ty} (h : (env.apply s)[x]? = some ρ) :
    ∃ σ, env[x]? = some σ ∧ ρ = s.apply σ := by
  rw [getElem?_apply] at h
  obtain ⟨σ, hσ, rfl⟩ := Option.map_eq_some_iff.mp h
  exact ⟨σ, hσ, rfl⟩

/-- The types of the environment are schemes. -/
def Prenex (env : TypeEnv) : Prop := ∀ ⦃x : String⦄ ⦃σ : Ty⦄, env[x]? = some σ → σ.Prenex

theorem Prenex.apply (henv : env.Prenex) (hs : s.BindsMono) : (env.apply s).Prenex := by
  intro x ρ hx
  obtain ⟨σ, hσ, rfl⟩ := getElem?_apply_some hx
  exact hs.prenex_apply (henv hσ)

theorem Prenex.insert (henv : env.Prenex) (x : String) {σ : Ty} (hσ : σ.Prenex) :
    Prenex (env.insert x σ) := by
  intro y ρ hy
  rcases getElem?_insert_some hy with ⟨-, rfl⟩ | ⟨-, hy⟩
  · exact hσ
  · exact henv hy

theorem Prenex.insert_var (henv : env.Prenex) (x v : String) : Prenex (env.insert x (.var v)) :=
  henv.insert x (Ty.Mono.prenex (t := .var v) trivial)

/-- **Substitution and instances**, for environments. -/
theorem Cleared.instances_apply (h : env.Cleared s) (hs : s.Regular) (f : String → Ty) :
    (env.apply s).instances f = env.instances fun v => (s.resolve v).bind f := by
  funext x τ
  apply propext
  constructor
  · rintro ⟨ρ, hρ, hi⟩
    obtain ⟨σ, hσ, rfl⟩ := getElem?_apply_some hρ
    exact ⟨σ, hσ, ((h hσ).2.hasInstance_apply hs (h hσ).1).mp hi⟩
  · rintro ⟨σ, hσ, hi⟩
    refine ⟨s.apply σ, ?_, ((h hσ).2.hasInstance_apply hs (h hσ).1).mpr hi⟩
    rw [getElem?_apply, hσ]
    rfl

/-- Who satisfies the bindings does not notice that the substitution was applied. -/
theorem Cleared.instances_of_respects (h : env.Cleared s) (hs : s.Regular) {f : String → Ty}
    (hf : Subst.Respects f s) : (env.apply s).instances f = env.instances f := by
  rw [h.instances_apply hs]
  exact instances_congr fun v _ => hs.bind_resolve_of_respects hf v

theorem Cleared.mem_freeTypeVars_apply (h : env.Cleared s) {u : String} :
    u ∈ (env.apply s).freeTypeVars ↔ ∃ v ∈ env.freeTypeVars, u ∈ (s.resolve v).freeVars := by
  constructor
  · intro hu
    obtain ⟨x, ρ, hρ, hu⟩ := mem_freeTypeVars.mp hu
    obtain ⟨σ, hσ, rfl⟩ := getElem?_apply_some hρ
    obtain ⟨v, hv, hu⟩ := ((h hσ).2.mem_freeVars_apply (h hσ).1).mp hu
    exact ⟨v, freeVars_subset hσ v hv, hu⟩
  · rintro ⟨v, hv, hu⟩
    obtain ⟨x, σ, hσ, hv⟩ := mem_freeTypeVars.mp hv
    refine mem_freeTypeVars.mpr ⟨x, s.apply σ, ?_, ?_⟩
    · rw [getElem?_apply, hσ]
      rfl
    · exact ((h hσ).2.mem_freeVars_apply (h hσ).1).mpr ⟨v, hv, hu⟩

end MiniML.TypeEnv

/-! ### Fresh instances -/

namespace MiniML.Ty

/-- On a monotype, simultaneous substitution is `bind`. -/
theorem substAll_eq_bind {t : Ty} (h : t.Mono) (m : Std.ExtTreeMap String Ty) :
    t.substAll m = t.bind fun v => (m[v]?).getD (.var v) := by
  induction t with
  | arrow a b iha ihb => rw [substAll, bind, iha h.1, ihb h.2]
  | list e ih => rw [substAll, bind, ih h]
  | ref c ih => rw [substAll, bind, ih h]
  | all v b => exact h.elim
  | var | int | unit => rfl

/-- Each listed name has the number of its last occurrence, counted from `start`. -/
def Numbers (names : List String) (start : Int) (number : String → Int) : Prop :=
  ∀ (i : Nat) (h : i < names.length), names[i] ∉ names.drop (i + 1) →
    number names[i] = start + i

theorem exists_last {names : List String} {q : String} (hq : q ∈ names) :
    ∃ (i : Nat) (h : i < names.length), names[i] = q ∧ names[i] ∉ names.drop (i + 1) := by
  induction names with
  | nil => cases hq
  | cons p names ih =>
    by_cases hlater : q ∈ names
    · obtain ⟨i, hi, hq, hlast⟩ := ih hlater
      exact ⟨i + 1, Nat.succ_lt_succ hi, hq, hlast⟩
    · obtain rfl := (List.mem_cons.mp hq).resolve_right hlater
      exact ⟨0, Nat.succ_pos _, rfl, hlater⟩

theorem Numbers.range {names : List String} {start : Int} {number : String → Int}
    (h : Numbers names start number) {q : String} (hq : q ∈ names) :
    start ≤ number q ∧ number q < start + names.length := by
  obtain ⟨i, hi, rfl, hlast⟩ := exists_last hq
  rw [h i hi hlast]
  omega

/-- Different names have different numbers. -/
theorem Numbers.inj {names : List String} {start : Int} {number : String → Int}
    (h : Numbers names start number) {p q : String} (hp : p ∈ names) (hq : q ∈ names)
    (heq : number p = number q) : p = q := by
  obtain ⟨i, hi, rfl, hi'⟩ := exists_last hp
  obtain ⟨j, hj, rfl, hj'⟩ := exists_last hq
  rw [h i hi hi', h j hj hj'] at heq
  obtain rfl : i = j := by omega
  rfl

/-- The map that sends each listed name to a fresh variable; of a repeated name the
    last occurrence counts. -/
theorem exists_numbers (names : List String) (s : NameSupply) (m : Std.ExtTreeMap String Ty) :
    ∃ number : String → Int, Numbers names s.count number ∧
      ∀ v, ((names.zip ((s.freshMany names.length).1.map Ty.var)).foldl
          (fun m b => m.insert b.1 b.2) m)[v]? =
        if v ∈ names then some (Ty.var (s.nameAt (number v))) else m[v]? := by
  induction names generalizing s m with
  | nil => exact ⟨fun _ => 0, fun i h => absurd h (Nat.not_lt_zero i), by simp [NameSupply.freshMany]⟩
  | cons q names ih =>
    obtain ⟨number, hnumber, hget⟩ := ih s.fresh.2 (m.insert q (.var s.fresh.1))
    refine ⟨fun v => if v ∈ names then number v else s.count, ?_, ?_⟩
    · intro i hi hlast
      cases i with
      | zero => exact (if_neg hlast).trans (Int.add_zero _).symm
      | succ i =>
        have hi := Nat.lt_of_succ_lt_succ hi
        refine (if_pos (List.getElem_mem hi)).trans ((hnumber i hi hlast).trans ?_)
        rw [NameSupply.count_fresh]
        omega
    · intro v
      simp only [List.length_cons, NameSupply.freshMany, List.map_cons, List.zip_cons_cons,
        List.foldl_cons]
      rw [hget v]
      by_cases hvn : v ∈ names
      · simp only [hvn, if_true, List.mem_cons, or_true]
        rfl
      · by_cases hvq : v = q
        · subst hvq
          simp [hvn, NameSupply.fresh]
        · simp [hvn, hvq, Std.ExtTreeMap.getElem?_insert, Ne.symm hvq]

/-- **Instantiation** puts fresh variables in the place of the quantified ones, each by
    its innermost quantifier. -/
theorem instantiate_numbers (σ : Ty) (hσ : σ.Prenex) (s : NameSupply) :
    ∃ number : String → Int, Numbers σ.splitAll.1 s.count number ∧
      (σ.instantiate s).1 = σ.splitAll.2.bind fun v =>
        .var (if v ∈ σ.splitAll.1 then s.nameAt (number v) else v) := by
  obtain ⟨number, hnumber, hget⟩ := exists_numbers σ.splitAll.1 s ∅
  refine ⟨number, hnumber, ?_⟩
  rw [instantiate, substAll_eq_bind hσ]
  refine bind_congr fun v _ => ?_
  rw [hget v]
  split <;> simp

/-- Different quantified variables get different fresh ones. -/
theorem instantiate_eq (σ : Ty) (hσ : σ.Prenex) (s : NameSupply) :
    ∃ number : String → Int,
      (∀ q ∈ σ.splitAll.1, s.count ≤ number q ∧ number q < (σ.instantiate s).2.count) ∧
      (∀ p ∈ σ.splitAll.1, ∀ q ∈ σ.splitAll.1, number p = number q → p = q) ∧
      (σ.instantiate s).1 = σ.splitAll.2.bind fun v =>
        .var (if v ∈ σ.splitAll.1 then s.nameAt (number v) else v) := by
  obtain ⟨number, hnumber, heq⟩ := σ.instantiate_numbers hσ s
  refine ⟨number, fun q hq => ?_, fun p hp q hq => hnumber.inj hp hq, heq⟩
  rw [instantiate, NameSupply.count_freshMany]
  exact hnumber.range hq

theorem mono_instantiate {σ : Ty} (hσ : σ.Prenex) (s : NameSupply) : (σ.instantiate s).1.Mono := by
  obtain ⟨number, -, -, heq⟩ := σ.instantiate_eq hσ s
  rw [heq]
  exact Mono.bind hσ fun _ => trivial

theorem before_instantiate (σ : Ty) (s : NameSupply) : s.Before (σ.instantiate s).2 :=
  NameSupply.before_freshMany s _

end MiniML.Ty
