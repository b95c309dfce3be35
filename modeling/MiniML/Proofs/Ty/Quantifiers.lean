/-
  MiniML/Proofs/Ty/Quantifiers.lean
  =================================
  **Unification and quantifiers** — two quantified types never unify, not even with
  themselves (`unify_all`), so a quantifier that reached unification would be reported as
  a mismatch.  A run that starts with monotypes, under a substitution that binds
  monotypes, meets monotypes only, and so do its answer and its fault (`unify_mono`).

  The run is followed visit by visit (`Visit.Next`).  Nothing is asked of the
  substitution but that it binds monotypes; it may have cycles.
-/
import MiniML.Proofs.Ty.Unifier

namespace MiniML

/-- The fault shows monotypes only. -/
def UnifyFault.Mono : UnifyFault → Prop
  | .mismatch a b => a.Mono ∧ b.Mono
  | .occurs _ t => t.Mono
  | .timeout => True

namespace Unify

open Subst

/-- A quantified type unifies with no other, and with itself neither. -/
theorem unify_all (fuel : Nat) (u v : String) (a b : Ty) (s : Subst) :
    unify (fuel + 1) (.all u a) (.all v b) s =
      .error (.mismatch (s.apply (.all u a)) (s.apply (.all v b))) := by
  simp only [unify, apply]
  rfl

/-! ### Visits -/

/-- A run of unification on its way: the pair at hand, which is resolved already, the
    pairs that wait, and what has been bound. -/
structure Visit where
  left : Ty
  right : Ty
  pending : List (Ty × Ty)
  subst : Subst

/-- The visit that follows, unless the run ends. -/
inductive Visit.Next : Visit → Visit → Prop where
  | arrow {a b c d pending s} :
      Next ⟨.arrow a b, .arrow c d, pending, s⟩ ⟨a, c, (b, d) :: pending, s⟩
  | list {a b pending s} : Next ⟨.list a, .list b, pending, s⟩ ⟨s.apply a, s.apply b, pending, s⟩
  | ref {a b pending s} : Next ⟨.ref a, .ref b, pending, s⟩ ⟨s.apply a, s.apply b, pending, s⟩
  | settled {a b c d pending s s'} (h : settle s a b = .ok s') :
      Next ⟨a, b, (c, d) :: pending, s⟩ ⟨s'.apply c, s'.apply d, pending, s'⟩

/-- The visits of a run: the first one, and those that follow. -/
def Visit.Leads : Visit → Visit → Prop := Relation.ReflTransGen Visit.Next

/-- The first visit when `a` and `b` are unified. -/
def Visit.first (a b : Ty) (s : Subst) : Visit := ⟨s.apply a, s.apply b, [], s⟩

/-- A run that is not cut off ends by settling a pair that it visits: with a fault, or with
    bindings when no pair is left. -/
theorem visit_ends {fuel : Nat} {a b : Ty} {pending : List (Ty × Ty)} {s : Subst}
    {r : Except UnifyFault Subst} (h : visit fuel a b pending s = r) (hr : r ≠ .error .timeout) :
    ∃ v, Visit.Leads ⟨a, b, pending, s⟩ v ∧ settle v.subst v.left v.right = r := by
  fun_induction visit fuel a b pending s with
  | case1 => exact absurd h.symm hr
  | case2 fuel a b c d pending s ih =>
    obtain ⟨v, hv, hsettle⟩ := ih h
    exact ⟨v, .head .arrow hv, hsettle⟩
  | case3 fuel a b pending s ih =>
    obtain ⟨v, hv, hsettle⟩ := ih h
    exact ⟨v, .head .list hv, hsettle⟩
  | case4 fuel a b pending s ih =>
    obtain ⟨v, hv, hsettle⟩ := ih h
    exact ⟨v, .head .ref hv, hsettle⟩
  | case5 fuel a b pending s _ _ _ fault hsettle => exact ⟨_, .refl, hsettle.trans h⟩
  | case6 fuel a b s _ _ _ s' hsettle => exact ⟨_, .refl, hsettle.trans h⟩
  | case7 fuel a b s _ _ _ s' hsettle c d rest ih =>
    obtain ⟨v, hv, hlast⟩ := ih h
    exact ⟨v, .head (.settled hsettle) hv, hlast⟩

/-! ### Monotypes only -/

/-- No quantifier is in sight. -/
structure Visit.Mono (v : Visit) : Prop where
  left : v.left.Mono
  right : v.right.Mono
  pending : MonoPairs v.pending
  subst : v.subst.BindsMono

/-- An answer binds monotypes, a fault shows monotypes. -/
def MonoResult : Except UnifyFault Subst → Prop
  | .ok s => s.BindsMono
  | .error fault => fault.Mono

theorem bind_mono {s : Subst} (hs : s.BindsMono) (x : String) {t : Ty} (ht : t.Mono) :
    MonoResult (bind x t s) := by
  rw [bind]
  split
  · exact ht
  · exact hs.insert ht

theorem settle_mono {a b : Ty} {s : Subst} (ha : a.Mono) (hb : b.Mono) (hs : s.BindsMono) :
    MonoResult (settle s a b) := by
  fun_cases settle s a b with
  | case1 | case5 | case6 => exact hs
  | case2 | case3 => exact bind_mono hs _ hb
  | case4 => exact bind_mono hs _ ha
  | case7 => exact ⟨ha, hb⟩

/-- One visit hands on monotypes. -/
theorem Visit.Next.mono {v w : Visit} (h : v.Next w) (hv : v.Mono) : w.Mono := by
  obtain ⟨hleft, hright, hpending, hs⟩ := hv
  cases h with
  | arrow =>
    exact ⟨hleft.1, hright.1, monoPairs_cons.mpr ⟨⟨hleft.2, hright.2⟩, hpending⟩, hs⟩
  | list | ref => exact ⟨hs.mono_apply hleft, hs.mono_apply hright, hpending, hs⟩
  | settled hsettle =>
    have hs' := settle_mono hleft hright hs
    rw [hsettle] at hs'
    obtain ⟨⟨hc, hd⟩, hrest⟩ := monoPairs_cons.mp hpending
    exact ⟨BindsMono.mono_apply hs' hc, BindsMono.mono_apply hs' hd, hrest, hs'⟩

theorem Visit.Leads.mono {v w : Visit} (h : v.Leads w) (hv : v.Mono) : w.Mono := by
  induction h with
  | refl => exact hv
  | tail _ hnext ih => exact hnext.mono ih

theorem Visit.mono_first {a b : Ty} {s : Subst} (ha : a.Mono) (hb : b.Mono) (hs : s.BindsMono) :
    (Visit.first a b s).Mono :=
  ⟨hs.mono_apply ha, hs.mono_apply hb, fun _ hp => absurd hp (by simp [Visit.first]), hs⟩

/-- **Unification of monotypes is about monotypes**, whatever its budget is. -/
theorem unify_mono (fuel : Nat) {a b : Ty} {s : Subst} (ha : a.Mono) (hb : b.Mono)
    (hs : s.BindsMono) : MonoResult (unify fuel a b s) := by
  by_cases hcut : unify fuel a b s = .error .timeout
  · rw [hcut]
    exact trivial
  · obtain ⟨v, hv, hsettle⟩ := visit_ends (h := rfl) hcut
    obtain ⟨hleft, hright, -, hs'⟩ := hv.mono (Visit.mono_first ha hb hs)
    have hlast := settle_mono hleft hright hs'
    rw [hsettle] at hlast
    exact hlast

theorem bindsMono_of_unify {fuel : Nat} {a b : Ty} {s s' : Subst} (h : unify fuel a b s = .ok s')
    (ha : a.Mono) (hb : b.Mono) (hs : s.BindsMono) : s'.BindsMono := by
  have hres := unify_mono fuel ha hb hs
  rw [h] at hres
  exact hres

end Unify

end MiniML
