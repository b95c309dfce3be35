/-
  MiniML/Proofs/Ty/Resolution.lean
  ================================
  **Solved substitutions** — application sets the binding of a variable aside while it
  resolves that variable, so that it ends even on a cycle.  On an acyclic substitution
  the rule is never used: no variable is met while it is being resolved, in whatever
  type (`Acyclic.not_revisits`).  Resolving once is then enough.
-/
import MiniML.Proofs.Ty.Scheme
import MiniML.Proofs.Ty.Unifier

namespace MiniML.Subst

/-- Resolving the type meets a variable that is being resolved.  The list holds the
    variables whose bindings were set aside for being resolved, the substitution the
    bindings that are left; a quantifier hides its variable from both. -/
inductive Revisits : Subst → List String → Ty → Prop where
  | here {s path x} (hx : x ∈ path) : Revisits s path (.var x)
  | bound {s : Subst} {path x t} (hx : s[x]? = some t)
      (h : Revisits (s.erase x) (x :: path) t) : Revisits s path (.var x)
  | dom {s path a b} (h : Revisits s path a) : Revisits s path (.arrow a b)
  | cod {s path a b} (h : Revisits s path b) : Revisits s path (.arrow a b)
  | elem {s path e} (h : Revisits s path e) : Revisits s path (.list e)
  | content {s path c} (h : Revisits s path c) : Revisits s path (.ref c)
  | body {s : Subst} {path v b} (h : Revisits (s.erase v) (path.filter (· ≠ v)) b) :
      Revisits s path (.all v b)

/-- Acyclic, and application does what the bindings say, once and for all. -/
structure Solved (s : Subst) : Prop where
  acyclic : s.Acyclic
  /-- The rule for cycles is never used. -/
  unguarded : ∀ t, ¬ s.Revisits [] t
  idempotent : ∀ t, t.Mono → s.apply (s.apply t) = s.apply t

/-- Every variable that is being resolved refers to the variables of the type that are
    bound or being resolved themselves; so one that is met again lies on a cycle. -/
theorem exists_cycle_of_revisits {s₀ s : Subst} {path : List String} {t : Ty}
    (h : s.Revisits path t) (hs : ∀ (x : String) (u : Ty), s[x]? = some u → s₀[x]? = some u)
    (hpath : ∀ y ∈ path, ∀ x ∈ t.freeVars, x ∈ path ∨ s[x]? ≠ none →
      Relation.TransGen s₀.Refers y x) : ∃ x, Relation.TransGen s₀.Refers x x := by
  induction h with
  | @here s path x hx => exact ⟨x, hpath x hx x (by simp) (.inl hx)⟩
  | @bound s path x t hx _ ih =>
    refine ih (fun y u hy => hs y u (getElem?_erase_some hy)) fun y hy z hz _ => ?_
    have hstep : s₀.Refers x z := ⟨t, hs x t hx, hz⟩
    rcases List.mem_cons.mp hy with rfl | hy
    · exact .single hstep
    · exact (hpath y hy x (by simp) (.inr (by simp [hx]))).tail hstep
  | dom _ ih => exact ih hs fun y hy x hx => hpath y hy x (Ty.mem_freeVars_arrow.mpr (.inl hx))
  | cod _ ih => exact ih hs fun y hy x hx => hpath y hy x (Ty.mem_freeVars_arrow.mpr (.inr hx))
  | elem _ ih => exact ih hs hpath
  | content _ ih => exact ih hs hpath
  | @body s path v b _ ih =>
    refine ih (fun y u hy => hs y u (getElem?_erase_some hy)) fun y hy x hx hbound => ?_
    -- the quantified variable is neither bound nor being resolved below its quantifier
    have hxv : x ≠ v := by
      rintro rfl
      simp at hbound
    refine hpath y (List.mem_filter.mp hy).1 x (Ty.mem_freeVars_all.mpr ⟨hx, hxv⟩) ?_
    rw [getElem?_erase_of_ne hxv] at hbound
    exact hbound.imp_left fun hmem => (List.mem_filter.mp hmem).1

theorem Acyclic.not_revisits {s : Subst} (hs : s.Acyclic) (t : Ty) : ¬ s.Revisits [] t := by
  intro h
  obtain ⟨x, hx⟩ := exists_cycle_of_revisits h (fun _ _ h => h) (by simp)
  exact hs x hx

theorem Regular.apply_apply {s : Subst} (hs : s.Regular) {t : Ty} (ht : t.Mono) :
    s.apply (s.apply t) = s.apply t :=
  apply_eq_self (Unify.resolved_apply hs ht)

theorem Regular.solved {s : Subst} (hs : s.Regular) : s.Solved :=
  ⟨hs.acyclic, hs.acyclic.not_revisits, fun _ => hs.apply_apply⟩

/-- A substitution puts no quantifier away. -/
theorem mono_of_mono_apply {s : Subst} {t : Ty} (h : (s.apply t).Mono) : t.Mono := by
  induction t with
  | var | int | unit => exact trivial
  | arrow a b iha ihb =>
    rw [apply] at h
    exact ⟨iha h.1, ihb h.2⟩
  | list e ih | ref c ih =>
    rw [apply] at h
    exact ih h
  | all v b =>
    rw [apply] at h
    exact h.elim

end MiniML.Subst
