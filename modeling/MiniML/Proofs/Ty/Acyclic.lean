/-
  MiniML/Proofs/Ty/Acyclic.lean
  =============================
  **Acyclic substitutions** — a substitution is acyclic when no variable is
  reached from itself through its bindings.  For such a substitution the rule that
  a variable counts as unbound while it is being resolved never matters, and
  `Subst.apply` is what one expects of a system of solved equations:

    * `resolve_of_bound`: a bound variable resolves to its resolved binding;
    * `not_bound_of_mem_resolve`: nothing that is left over is bound;
    * `bind_apply_of_respects`: a function on variables that satisfies the
      bindings as equations does not distinguish a type from its resolved form;
    * `resolve_compose`: `compose` resolves by one substitution after the other.

  All of them are inductions along a rank, a number for each variable that falls
  from a variable to those in its binding.
-/
import Mathlib.Data.Finset.Card
import Mathlib.Data.Finset.Filter
import Mathlib.Data.List.Basic
import Mathlib.Logic.Relation
import MiniML.Proofs.Ty.Mono
import MiniML.Ty.Subst

namespace MiniML.Subst

/-- `y` occurs in what `x` is bound to. -/
def Refers (s : Subst) (x y : String) : Prop := ∃ t, s[x]? = some t ∧ y ∈ t.freeVars

/-- No variable is reached from itself through the bindings. -/
def Acyclic (s : Subst) : Prop := ∀ x, ¬ Relation.TransGen s.Refers x x

/-- Acyclic, and every variable is bound to a monotype. -/
structure Regular (s : Subst) : Prop where
  acyclic : s.Acyclic
  mono : ∀ {x : String} {t : Ty}, s[x]? = some t → t.Mono

/-- Every variable is bound to a monotype; there may be cycles. -/
def BindsMono (s : Subst) : Prop := ∀ ⦃x : String⦄ ⦃t : Ty⦄, s[x]? = some t → t.Mono

/-- `f` satisfies the bindings, read as equations. -/
def Respects (f : String → Ty) (s : Subst) : Prop :=
  ∀ ⦃x : String⦄ ⦃t : Ty⦄, s[x]? = some t → f x = t.bind f

/-- All names in the bindings, on either side, have the property `P`. -/
def Within (P : String → Prop) (s : Subst) : Prop :=
  ∀ ⦃x : String⦄ ⦃t : Ty⦄, s[x]? = some t → P x ∧ ∀ y ∈ t.freeVars, P y

/-- What a variable stands for. -/
def resolve (s : Subst) (x : String) : Ty := s.apply (.var x)

/-! ### Ranks -/

/-- A rank falls from a variable to the variables of its binding. -/
def IsRank (s : Subst) (r : String → Nat) : Prop := ∀ {x y}, s.Refers x y → r y < r x

theorem IsRank.acyclic {s : Subst} {r : String → Nat} (h : s.IsRank r) : s.Acyclic := by
  have hlt : ∀ {x y}, Relation.TransGen s.Refers x y → r y < r x := by
    intro x y hxy
    induction hxy with
    | single hxy => exact h hxy
    | tail _ hyz ih => exact Nat.lt_trans (h hyz) ih
  intro x hx
  exact Nat.lt_irrefl _ (hlt hx)

open Classical in
/-- An acyclic substitution has a rank: the number of bound names within reach. -/
theorem Acyclic.exists_rank {s : Subst} (h : s.Acyclic) : ∃ r, s.IsRank r := by
  let reach (x : String) : Finset String :=
    s.keys.toFinset.filter (Relation.ReflTransGen s.Refers x)
  refine ⟨fun x => (reach x).card, ?_⟩
  intro x y hxy
  have hx : x ∈ s.keys := by
    obtain ⟨t, ht, -⟩ := hxy
    rw [Std.ExtTreeMap.mem_keys, Std.ExtTreeMap.mem_iff_isSome_getElem?, ht]
    rfl
  refine Finset.card_lt_card ((Finset.ssubset_iff_of_subset ?_).mpr ⟨x, ?_, ?_⟩)
  · intro z hz
    simp only [reach, Finset.mem_filter] at hz ⊢
    exact ⟨hz.1, Relation.ReflTransGen.head hxy hz.2⟩
  · simp only [reach, Finset.mem_filter, List.mem_toFinset]
    exact ⟨hx, Relation.ReflTransGen.refl⟩
  · simp only [reach, Finset.mem_filter, not_and]
    intro _ hyx
    exact h x (Relation.TransGen.head' hxy hyx)

/-! ### Resolving -/

theorem resolve_of_unbound {s : Subst} {x : String} (h : s[x]? = none) :
    s.resolve x = .var x := by
  rw [resolve, apply]
  split
  · rename_i t ht
    rw [h] at ht
    exact absurd ht (by simp)
  · rfl

theorem apply_var_of_bound {s : Subst} {x : String} {t : Ty} (h : s[x]? = some t) :
    s.apply (.var x) = apply (s.erase x) t := by
  rw [apply]
  split
  · rename_i u hu
    rw [h] at hu
    rw [Option.some.inj hu]
  · rename_i hu
    rw [h] at hu
    exact absurd hu (by simp)

/-- On a monotype, application replaces each variable by what it stands for. -/
theorem apply_eq_bind (s : Subst) {t : Ty} (h : t.Mono) : s.apply t = t.bind s.resolve := by
  induction t with
  | var x => rfl
  | arrow a b iha ihb => rw [apply, Ty.bind, iha h.1, ihb h.2]
  | list e ih => rw [apply, Ty.bind, ih h]
  | ref c ih => rw [apply, Ty.bind, ih h]
  | all v b => exact h.elim
  | int => rw [apply, Ty.bind]
  | unit => rw [apply, Ty.bind]

theorem getElem?_erase_of_ne {s : Subst} {x y : String} (h : y ≠ x) :
    (s.erase x)[y]? = s[y]? := by
  rw [Std.ExtTreeMap.getElem?_erase]
  simp [Ne.symm h]

theorem getElem?_erase_some {s : Subst} {x y : String} {t : Ty}
    (h : (s.erase x)[y]? = some t) : s[y]? = some t := by
  rw [Std.ExtTreeMap.getElem?_erase] at h
  split at h
  · exact absurd h (by simp)
  · exact h

theorem BindsMono.erase {s : Subst} (hs : s.BindsMono) (x : String) : BindsMono (s.erase x) :=
  fun _ _ h => hs (getElem?_erase_some h)

/-- Monotypes in, monotypes out: a binding is resolved without its own variable, so the
    argument needs no acyclicity. -/
theorem BindsMono.mono_apply {s : Subst} (hs : s.BindsMono) {t : Ty} (ht : t.Mono) :
    (s.apply t).Mono := by
  induction s, t using apply.induct with
  | case1 s x t hx ih =>
    rw [apply_var_of_bound hx]
    exact ih (hs.erase x) (hs hx)
  | case2 s x hx =>
    rw [← resolve, resolve_of_unbound hx]
    exact trivial
  | case3 s a b iha ihb =>
    rw [apply]
    exact ⟨iha hs ht.1, ihb hs ht.2⟩
  | case4 => rw [apply]; exact trivial
  | case5 s e ih => rw [apply]; exact ih hs ht
  | case6 => rw [apply]; exact trivial
  | case7 s c ih => rw [apply]; exact ih hs ht
  | case8 s v b => exact ht.elim

/-- Two substitutions that agree on the names below a rank agree on types whose
    variables are below it. -/
theorem apply_congr_of_rank {r : String → Nat} (n : Nat) {s s' : Subst} (hr : s.IsRank r)
    (hm : ∀ {x : String} {t : Ty}, s[x]? = some t → t.Mono) (hs : ∀ x, r x < n → s[x]? = s'[x]?)
    {t : Ty} (ht : t.Mono) (hv : ∀ x ∈ t.freeVars, r x < n) : s.apply t = s'.apply t := by
  induction n using Nat.strong_induction_on generalizing s s' t with
  | _ n ih =>
    rw [apply_eq_bind s ht, apply_eq_bind s' ht]
    refine Ty.bind_congr fun x hx => ?_
    have hxn := hv x hx
    cases hsx : s[x]? with
    | none => rw [resolve_of_unbound hsx, resolve_of_unbound (hs x hxn ▸ hsx)]
    | some u =>
      rw [resolve, resolve, apply_var_of_bound hsx, apply_var_of_bound (hs x hxn ▸ hsx)]
      -- the variables of the binding have a smaller rank, where erasing `x` changes nothing
      refine ih (r x) hxn (fun ⟨w, hw, hy⟩ => hr ⟨w, getElem?_erase_some hw, hy⟩)
        (fun h => hm (getElem?_erase_some h)) ?_ (hm hsx) (fun y hy => hr ⟨u, hsx, hy⟩)
      intro y hy
      have hyx : y ≠ x := fun h => Nat.lt_irrefl _ (h ▸ hy)
      rw [getElem?_erase_of_ne hyx, getElem?_erase_of_ne hyx]
      exact hs y (Nat.lt_trans hy hxn)

/-- A bound variable stands for its binding, resolved. -/
theorem Regular.resolve_of_bound {s : Subst} (hs : s.Regular) {x : String} {t : Ty}
    (h : s[x]? = some t) : s.resolve x = t.bind s.resolve := by
  obtain ⟨r, hr⟩ := hs.acyclic.exists_rank
  rw [resolve, apply_var_of_bound h, ← apply_eq_bind s (hs.mono h)]
  refine apply_congr_of_rank (r x) (r := r) (fun ⟨w, hw, hy⟩ => hr ⟨w, getElem?_erase_some hw, hy⟩)
    (fun h => hs.mono (getElem?_erase_some h)) ?_ (hs.mono h) (fun y hy => hr ⟨t, h, hy⟩)
  intro y hy
  exact getElem?_erase_of_ne fun h => Nat.lt_irrefl _ (h ▸ hy)

/-- Resolving satisfies the bindings. -/
theorem Regular.respects_resolve {s : Subst} (hs : s.Regular) : Respects s.resolve s :=
  fun _ _ h => hs.resolve_of_bound h

/-- Induction along the bindings: a property of the unbound names that passes from
    the variables of a binding to the bound name holds of all names. -/
theorem Regular.induction {s : Subst} (hs : s.Regular) {P : String → Prop}
    (unbound : ∀ x, s[x]? = none → P x)
    (bound : ∀ x t, s[x]? = some t → (∀ y ∈ t.freeVars, P y) → P x) (x : String) : P x := by
  obtain ⟨r, hr⟩ := hs.acyclic.exists_rank
  induction hn : r x using Nat.strong_induction_on generalizing x with
  | _ n ih =>
    cases hx : s[x]? with
    | none => exact unbound x hx
    | some t => exact bound x t hx fun y hy => ih (r y) (hn ▸ hr ⟨t, hx, hy⟩) y rfl

theorem Regular.bindsMono {s : Subst} (hs : s.Regular) : s.BindsMono := fun _ _ h => hs.mono h

theorem Regular.mono_apply {s : Subst} (hs : s.Regular) {t : Ty} (ht : t.Mono) :
    (s.apply t).Mono :=
  hs.bindsMono.mono_apply ht

theorem Regular.mono_resolve {s : Subst} (hs : s.Regular) (x : String) : (s.resolve x).Mono :=
  hs.mono_apply (t := .var x) trivial

/-- No variable that is left after resolving is bound. -/
theorem Regular.not_bound_of_mem_resolve {s : Subst} (hs : s.Regular) (x : String) :
    ∀ y ∈ (s.resolve x).freeVars, s[y]? = none := by
  refine hs.induction (P := fun x => ∀ y ∈ (s.resolve x).freeVars, s[y]? = none) ?_ ?_ x
  · intro x hx y hy
    rw [resolve_of_unbound hx, Ty.mem_freeVars_var] at hy
    exact hy ▸ hx
  · intro x t hx ih y hy
    rw [hs.resolve_of_bound hx] at hy
    obtain ⟨z, hz, hy⟩ := (Ty.mem_freeVars_bind (hs.mono hx)).mp hy
    exact ih z hz y hy

/-- Resolving introduces no names but those of the bindings. -/
theorem Regular.mem_resolve {s : Subst} (hs : s.Regular) {P : String → Prop} (hP : s.Within P)
    {x : String} (hx : P x) : ∀ y ∈ (s.resolve x).freeVars, P y := by
  revert hx
  refine hs.induction (P := fun x => P x → ∀ y ∈ (s.resolve x).freeVars, P y) ?_ ?_ x
  · intro x hx hPx y hy
    rw [resolve_of_unbound hx, Ty.mem_freeVars_var] at hy
    exact hy ▸ hPx
  · intro x t hx ih _ y hy
    rw [hs.resolve_of_bound hx] at hy
    obtain ⟨z, hz, hy⟩ := (Ty.mem_freeVars_bind (hs.mono hx)).mp hy
    exact ih z hz ((hP hx).2 z hz) y hy

theorem Regular.mem_apply {s : Subst} (hs : s.Regular) {P : String → Prop} (hP : s.Within P)
    {t : Ty} (ht : t.Mono) (h : ∀ x ∈ t.freeVars, P x) : ∀ y ∈ (s.apply t).freeVars, P y := by
  intro y hy
  rw [apply_eq_bind s ht] at hy
  obtain ⟨x, hx, hy⟩ := (Ty.mem_freeVars_bind ht).mp hy
  exact hs.mem_resolve hP (h x hx) y hy

/-- Who satisfies the bindings does not tell a variable from what it stands for. -/
theorem Regular.bind_resolve_of_respects {s : Subst} (hs : s.Regular) {f : String → Ty}
    (hf : Respects f s) (x : String) : (s.resolve x).bind f = f x := by
  refine hs.induction (P := fun x => (s.resolve x).bind f = f x) ?_ ?_ x
  · intro x hx
    rw [resolve_of_unbound hx]
    rfl
  · intro x t hx ih
    rw [hs.resolve_of_bound hx, Ty.bind_bind (hs.mono hx), hf hx]
    exact Ty.bind_congr ih

theorem Regular.bind_apply_of_respects {s : Subst} (hs : s.Regular) {f : String → Ty}
    (hf : Respects f s) {t : Ty} (ht : t.Mono) : (s.apply t).bind f = t.bind f := by
  rw [apply_eq_bind s ht, Ty.bind_bind ht]
  exact Ty.bind_congr fun x _ => hs.bind_resolve_of_respects hf x

/-! ### The empty substitution -/

theorem bindsMono_empty : BindsMono ∅ := fun _ _ h => absurd h (by simp)

theorem regular_empty : Regular ∅ where
  acyclic := IsRank.acyclic (r := fun _ => 0) fun ⟨_, h, _⟩ => absurd h (by simp)
  mono h := absurd h (by simp)

theorem respects_empty (f : String → Ty) : Respects f ∅ := fun _ _ h => absurd h (by simp)

theorem within_empty (P : String → Prop) : Within P ∅ := fun _ _ h => absurd h (by simp)

/-! ### Adding a binding -/

theorem getElem?_insert_some {s : Subst} {x y : String} {t u : Ty}
    (h : (s.insert x t)[y]? = some u) : (y = x ∧ u = t) ∨ (y ≠ x ∧ s[y]? = some u) := by
  rw [Std.ExtTreeMap.getElem?_insert] at h
  split at h
  · rename_i hxy
    simp only [Std.LawfulEqCmp.compare_eq_iff_eq] at hxy
    exact .inl ⟨hxy.symm, (Option.some.inj h).symm⟩
  · rename_i hxy
    simp only [Std.LawfulEqCmp.compare_eq_iff_eq] at hxy
    exact .inr ⟨Ne.symm hxy, h⟩

theorem BindsMono.insert {s : Subst} (hs : s.BindsMono) {x : String} {t : Ty} (ht : t.Mono) :
    BindsMono (s.insert x t) := by
  intro y u hu
  rcases getElem?_insert_some hu with ⟨-, rfl⟩ | ⟨-, hu⟩
  · exact ht
  · exact hs hu

/-- Binding an unbound variable to a resolved type that does not contain it keeps
    a substitution regular. -/
theorem Regular.insert {s : Subst} (hs : s.Regular) {x : String} {t : Ty} (ht : t.Mono)
    (hx : x ∉ t.freeVars) (hfree : ∀ y ∈ t.freeVars, s[y]? = none) : Regular (s.insert x t) := by
  obtain ⟨r, hr⟩ := hs.acyclic.exists_rank
  constructor
  · -- what is unbound has rank 0, then comes `x`, then what was bound before
    let r' (y : String) : Nat := if y = x then 1 else if (s[y]?).isSome then r y + 2 else 0
    refine IsRank.acyclic (r := r') ?_
    rintro y z ⟨u, hu, hz⟩
    rcases getElem?_insert_some hu with ⟨rfl, rfl⟩ | ⟨hyx, hu⟩
    · have hzy : z ≠ y := fun h => hx (h ▸ hz)
      simp only [r', hzy, hfree z hz, if_false, if_true, Option.isSome_none, Bool.false_eq_true]
      omega
    · have hzy := hr ⟨u, hu, hz⟩
      simp only [r', hyx, hu, if_false, Option.isSome_some, if_true]
      split
      · omega
      · split <;> omega
  · exact fun hu => hs.bindsMono.insert ht hu

theorem respects_insert_iff {s : Subst} {x : String} {t : Ty} (hx : s[x]? = none)
    {f : String → Ty} : Respects f (s.insert x t) ↔ Respects f s ∧ f x = t.bind f := by
  constructor
  · intro h
    refine ⟨fun y u hu => h ?_, h (by simp)⟩
    have hyx : x ≠ y := by
      rintro rfl
      rw [hx] at hu
      exact absurd hu (by simp)
    simpa [Std.ExtTreeMap.getElem?_insert, hyx] using hu
  · rintro ⟨h, hxt⟩ y u hu
    rcases getElem?_insert_some hu with ⟨rfl, rfl⟩ | ⟨-, hu⟩
    · exact hxt
    · exact h hu

/-- Whether bindings are satisfied depends on the names in them only. -/
theorem Respects.congr {s : Subst} {P : String → Prop} (hP : s.Within P) {f g : String → Ty}
    (hf : Respects f s) (hfg : ∀ v, P v → f v = g v) : Respects g s := by
  intro x t hx
  rw [← hfg x (hP hx).1, hf hx]
  exact Ty.bind_congr fun y hy => hfg y ((hP hx).2 y hy)

theorem Within.insert {s : Subst} {P : String → Prop} (hs : s.Within P) {x : String} {t : Ty}
    (hx : P x) (ht : ∀ y ∈ t.freeVars, P y) : Within P (s.insert x t) := by
  intro y u hu
  rcases getElem?_insert_some hu with ⟨rfl, rfl⟩ | ⟨-, hu⟩
  · exact ⟨hx, ht⟩
  · exact hs hu

theorem Within.imp {s : Subst} {P Q : String → Prop} (hs : s.Within P) (h : ∀ x, P x → Q x) :
    s.Within Q :=
  fun _ _ hx => ⟨h _ (hs hx).1, fun y hy => h y ((hs hx).2 y hy)⟩

/-! ### Composition -/

/-- The two substitutions of a composition do not interfere: nothing that the
    first binds occurs in the bindings of the second, and nothing that both bind
    occurs in those of the first. -/
structure Apart (s later : Subst) : Prop where
  range : ∀ {x y : String}, s[x]? ≠ none → ¬ later.Refers y x
  both : ∀ {x y : String}, s[x]? ≠ none → later[x]? ≠ none → ¬ s.Refers y x

theorem getElem?_compose_of_bound {s later : Subst} {x : String} {t : Ty} (h : s[x]? = some t) :
    (s.compose later)[x]? = some (later.apply t) := by
  rw [getElem?_compose, h]
  rfl

theorem getElem?_compose_of_unbound {s later : Subst} {x : String} (h : s[x]? = none) :
    (s.compose later)[x]? = later[x]? := by
  rw [getElem?_compose, h]
  rfl

/-- The bindings of a composition are those of the first, resolved by the second,
    and the other ones of the second. -/
theorem getElem?_compose_some {s later : Subst} {x : String} {u : Ty}
    (h : (s.compose later)[x]? = some u) :
    (∃ t, s[x]? = some t ∧ u = later.apply t) ∨ (s[x]? = none ∧ later[x]? = some u) := by
  cases hx : s[x]? with
  | some t =>
    rw [getElem?_compose_of_bound hx] at h
    exact .inl ⟨t, rfl, (Option.some.inj h).symm⟩
  | none =>
    rw [getElem?_compose_of_unbound hx] at h
    exact .inr ⟨rfl, h⟩

/-- A variable in the range of the first, resolved by the second, either stayed or
    left the bound names of both behind. -/
theorem Apart.mem_resolve {s later : Subst} (h : Apart s later) (hl : later.Regular)
    {x y z : String} (hxy : s.Refers x y) (hz : z ∈ (later.resolve y).freeVars) :
    (z = y ∧ later[y]? = none) ∨ (s[z]? = none ∧ later[z]? = none) := by
  have hzl := hl.not_bound_of_mem_resolve y z hz
  cases hy : later[y]? with
  | none =>
    rw [resolve_of_unbound hy, Ty.mem_freeVars_var] at hz
    exact .inl ⟨hz, rfl⟩
  | some t =>
    refine .inr ⟨?_, hzl⟩
    by_contra hzs
    have hw : later.Within fun v => v ≠ z ∨ s[y]? ≠ none := by
      intro v u hv
      refine ⟨.inl ?_, fun w hw => .inl ?_⟩
      · rintro rfl
        rw [hzl] at hv
        exact absurd hv (by simp)
      · rintro rfl
        exact h.range hzs ⟨u, hv, hw⟩
    have hsy : s[y]? = none := by
      by_contra hsy
      exact h.both hsy (by simp [hy]) hxy
    have hyz : y ≠ z := fun hyz => hzs (hyz ▸ hsy)
    rcases hl.mem_resolve hw (.inl hyz) z hz with hne | hne
    · exact hne rfl
    · exact hne hsy

theorem BindsMono.compose {s later : Subst} (hs : s.BindsMono) (hl : later.BindsMono) :
    (s.compose later).BindsMono := by
  intro x u hu
  rcases getElem?_compose_some hu with ⟨t, ht, rfl⟩ | ⟨-, hu⟩
  · exact hl.mono_apply (hs ht)
  · exact hl hu

theorem Regular.compose {s later : Subst} (hs : s.Regular) (hl : later.Regular)
    (h : Apart s later) : (s.compose later).Regular := by
  obtain ⟨r, hr⟩ := hs.acyclic.exists_rank
  obtain ⟨r', hr'⟩ := hl.acyclic.exists_rank
  constructor
  · -- names that neither binds have rank 0, the others keep the order of their own bindings
    let q (y : String) : Nat :=
      if (s[y]?).isSome then r y + 1 else if (later[y]?).isSome then r' y + 1 else 0
    refine IsRank.acyclic (r := q) ?_
    rintro x z ⟨u, hu, hz⟩
    rcases getElem?_compose_some hu with ⟨t, ht, rfl⟩ | ⟨hx, hu⟩
    · rw [apply_eq_bind later (hs.mono ht)] at hz
      obtain ⟨y, hy, hz⟩ := (Ty.mem_freeVars_bind (hs.mono ht)).mp hz
      have hq : q x = r x + 1 := by simp only [q, ht, Option.isSome_some, if_true]
      rcases h.mem_resolve hl ⟨t, ht, hy⟩ hz with ⟨rfl, hly⟩ | ⟨hzs, hzl⟩
      · have hlt := hr ⟨t, ht, hy⟩
        rw [hq]
        simp only [q, hly, Option.isSome_none, Bool.false_eq_true, if_false]
        split <;> omega
      · rw [hq]
        simp only [q, hzs, hzl, Option.isSome_none, Bool.false_eq_true, if_false]
        omega
    · have hzs : s[z]? = none := by
        by_contra hzs
        exact h.range hzs ⟨u, hu, hz⟩
      have hlt := hr' ⟨u, hu, hz⟩
      simp only [q, hx, hu, hzs, Option.isSome_none, Option.isSome_some, Bool.false_eq_true,
        if_false, if_true]
      split <;> omega
  · exact fun hu => hs.bindsMono.compose hl.bindsMono hu

/-- What a variable stands for under the first and then under the second satisfies
    the bindings of the composition. -/
theorem Apart.respects_compose {s later : Subst} (h : Apart s later) (hs : s.Regular)
    (hl : later.Regular) :
    Respects (fun x => (s.resolve x).bind later.resolve) (s.compose later) := by
  intro x u hu
  dsimp only
  have hunbound : ∀ {y : String}, s[y]? = none →
      (s.resolve y).bind later.resolve = later.resolve y := by
    intro y hy
    rw [resolve_of_unbound hy]
    rfl
  rcases getElem?_compose_some hu with ⟨t, ht, rfl⟩ | ⟨hx, hu⟩
  · rw [hs.resolve_of_bound ht, Ty.bind_bind (hs.mono ht), apply_eq_bind later (hs.mono ht),
      Ty.bind_bind (hs.mono ht)]
    refine Ty.bind_congr fun y hy => ?_
    cases hly : later[y]? with
    | none =>
      rw [resolve_of_unbound hly]
      rfl
    | some w =>
      -- the second binds `y`, so the first does not, and it binds nothing in what `y` becomes
      have hsy : s[y]? = none := by
        by_contra hsy
        exact h.both hsy (by simp [hly]) ⟨t, ht, hy⟩
      rw [hunbound hsy]
      refine (Ty.bind_eq_self fun z hz => ?_).symm
      rcases h.mem_resolve hl ⟨t, ht, hy⟩ hz with ⟨-, hly'⟩ | ⟨hzs, hzl⟩
      · rw [hly] at hly'
        cases hly'
      · rw [hunbound hzs, resolve_of_unbound hzl]
  · rw [hunbound hx, hl.resolve_of_bound hu]
    refine Ty.bind_congr fun y hy => (hunbound ?_).symm
    by_contra hsy
    exact h.range hsy ⟨u, hu, hy⟩

/-- A composition resolves a variable by one substitution after the other. -/
theorem Apart.resolve_compose {s later : Subst} (h : Apart s later) (hs : s.Regular)
    (hl : later.Regular) (x : String) :
    (s.compose later).resolve x = (s.resolve x).bind later.resolve := by
  have hc := hs.compose hl h
  rw [← hc.bind_resolve_of_respects (h.respects_compose hs hl) x]
  refine (Ty.bind_eq_self fun y hy => ?_).symm
  have hy' := hc.not_bound_of_mem_resolve x y hy
  rw [getElem?_compose, Option.or_eq_none_iff, Option.map_eq_none_iff] at hy'
  rw [resolve_of_unbound hy'.1, Ty.bind, resolve_of_unbound hy'.2]

theorem Apart.apply_compose {s later : Subst} (h : Apart s later) (hs : s.Regular)
    (hl : later.Regular) {t : Ty} (ht : t.Mono) :
    (s.compose later).apply t = later.apply (s.apply t) := by
  rw [apply_eq_bind _ ht, apply_eq_bind later (hs.mono_apply ht), apply_eq_bind s ht,
    Ty.bind_bind ht]
  exact Ty.bind_congr fun x _ => h.resolve_compose hs hl x

/-- Who satisfies the bindings of both satisfies those of the composition. -/
theorem Respects.compose {s later : Subst} (hs : s.Regular) (hl : later.Regular)
    {f : String → Ty} (hf : Respects f s) (hf' : Respects f later) :
    Respects f (s.compose later) := by
  intro x u hu
  rcases getElem?_compose_some hu with ⟨t, ht, rfl⟩ | ⟨-, hu⟩
  · rw [hl.bind_apply_of_respects hf' (hs.mono ht)]
    exact hf ht
  · exact hf' hu

/-- If the two bind no name in common, the converse holds as well. -/
theorem Respects.of_compose {s later : Subst} (hs : s.Regular) (hl : later.Regular)
    (hd : ∀ x : String, s[x]? ≠ none → later[x]? = none) {f : String → Ty}
    (hf : Respects f (s.compose later)) : Respects f s ∧ Respects f later := by
  have hlater : Respects f later := by
    intro x u hu
    have hx : s[x]? = none := by
      by_contra hx
      rw [hd x hx] at hu
      exact absurd hu (by simp)
    exact hf ((getElem?_compose_of_unbound hx).trans hu)
  refine ⟨fun x t ht => ?_, hlater⟩
  rw [hf (getElem?_compose_of_bound ht), hl.bind_apply_of_respects hlater (hs.mono ht)]

theorem Within.compose {s later : Subst} {P : String → Prop} (hs : s.Regular)
    (hl : later.Regular) (hP : s.Within P) (hP' : later.Within P) :
    (s.compose later).Within P := by
  intro x u hu
  rcases getElem?_compose_some hu with ⟨t, ht, rfl⟩ | ⟨-, hu⟩
  · exact ⟨(hP ht).1, hl.mem_apply hP' (hs.mono ht) (hP ht).2⟩
  · exact hP' hu

end MiniML.Subst
