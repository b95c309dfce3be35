/-
  MiniML/Proofs/Ty/Nameless.lean
  ==============================
  **Nameless types** — types in which an occurrence of a quantified variable points at
  its quantifier, and only free variables have names.  Two types have the same
  nameless form exactly if they differ in the names of quantified variables, and
  putting types in the place of free names cannot capture anything there: it is the
  reference against which `Subst.apply` on schemes, which renames nothing, is held.

  On a scheme the two agree as soon as no quantifier gets in the way
  (`Clears.nameless_apply`).
-/
import MiniML.Proofs.Term.Nameless
import MiniML.Proofs.Ty.Scheme

namespace MiniML.Ty

/-- The forms of `Ty` without the names of quantifiers. -/
inductive Nameless where
  | var (v : MiniML.Nameless.Var)
  | arrow (dom cod : Nameless)
  | int
  | list (elem : Nameless)
  | unit
  | ref (content : Nameless)
  | all (body : Nameless)
deriving DecidableEq, Repr

/-- The type with all free names replaced by types that point to no quantifier outside. -/
def Nameless.bind (f : String → Nameless) : Nameless → Nameless
  | .var (.bound i) => .var (.bound i)
  | .var (.free x) => f x
  | .arrow a b => .arrow (a.bind f) (b.bind f)
  | .int => .int
  | .list e => .list (e.bind f)
  | .unit => .unit
  | .ref c => .ref (c.bind f)
  | .all b => .all (b.bind f)

/-- The nameless form of a type below the listed quantifiers, the nearest first. -/
def namelessIn (Γ : List String) : Ty → Nameless
  | .var x => .var (resolve Γ x)
  | .arrow a b => .arrow (a.namelessIn Γ) (b.namelessIn Γ)
  | .int => .int
  | .list e => .list (e.namelessIn Γ)
  | .unit => .unit
  | .ref c => .ref (c.namelessIn Γ)
  | .all v b => .all (b.namelessIn (v :: Γ))

/-- The nameless form of a type. -/
def nameless (t : Ty) : Nameless := t.namelessIn []

theorem namelessIn_congr {t : Ty} {Γ Δ : List String}
    (h : ∀ x ∈ t.freeVars, resolve Γ x = resolve Δ x) : t.namelessIn Γ = t.namelessIn Δ := by
  induction t generalizing Γ Δ with
  | var x => rw [namelessIn, namelessIn, h x (by simp)]
  | int | unit => rfl
  | arrow a b iha ihb =>
    rw [namelessIn, namelessIn, iha fun x hx => h x (by simp [hx]),
      ihb fun x hx => h x (by simp [hx])]
  | list e ih | ref e ih => rw [namelessIn, namelessIn, ih h]
  | all v b ih =>
    rw [namelessIn, namelessIn, ih fun x hx => ?_]
    by_cases hxv : x = v
    · rw [hxv, resolve, resolve, if_pos rfl, if_pos rfl]
    · exact resolve_cons_congr (h x (by simp [hx, hxv])) hxv hxv

theorem namelessIn_eq_nameless {t : Ty} {Γ : List String} (h : ∀ x ∈ t.freeVars, x ∉ Γ) :
    t.namelessIn Γ = t.nameless :=
  namelessIn_congr fun x hx => resolve_eq_free (h x hx)

/-! ### Replacing variables -/

theorem namelessIn_bind {t : Ty} (ht : t.Mono) {Γ : List String} {g : String → Ty}
    {f : String → Nameless}
    (h : ∀ v ∈ t.freeVars, (g v).namelessIn Γ = (Nameless.var (resolve Γ v)).bind f) :
    (t.bind g).namelessIn Γ = (t.namelessIn Γ).bind f := by
  induction t with
  | var x => exact h x (by simp)
  | int | unit => rfl
  | arrow a b iha ihb =>
    rw [bind, namelessIn, namelessIn, Nameless.bind, iha ht.1 fun v hv => h v (by simp [hv]),
      ihb ht.2 fun v hv => h v (by simp [hv])]
  | list e ih | ref e ih => rw [bind, namelessIn, namelessIn, Nameless.bind, ih ht h]
  | all v b => exact ht.elim

theorem namelessIn_allMany_bind {t : Ty} (ht : t.Mono) (names : List String) {Γ : List String}
    {g : String → Ty} {f : String → Nameless}
    (h : ∀ v ∈ t.freeVars, (g v).namelessIn (names.reverse ++ Γ) =
      (Nameless.var (resolve (names.reverse ++ Γ) v)).bind f) :
    (allMany names (t.bind g)).namelessIn Γ = ((allMany names t).namelessIn Γ).bind f := by
  induction names generalizing Γ with
  | nil => exact namelessIn_bind ht h
  | cons q names ih =>
    -- the first name is the outermost quantifier, and the nearest stands first in the list
    refine congrArg Nameless.all (ih fun v hv => ?_)
    have hv := h v hv
    rwa [List.reverse_cons, List.append_assoc] at hv

end MiniML.Ty

namespace MiniML.Subst

/-- The type with every free name replaced by what it stands for. -/
def applyNameless (s : Subst) (t : Ty.Nameless) : Ty.Nameless :=
  t.bind fun v => (s.resolve v).nameless

/-- **Substitution without capture.**  On a scheme that it clears, a substitution puts
    what the free variables stand for in their place. -/
theorem Clears.nameless_apply {s : Subst} {σ : Ty} (h : s.Clears σ) (hσ : σ.Prenex) :
    (s.apply σ).nameless = s.applyNameless σ.nameless := by
  conv_rhs => rw [← Ty.allMany_splitAll σ]
  rw [h.apply_eq hσ]
  refine Ty.namelessIn_allMany_bind hσ σ.splitAll.1 fun v hv => ?_
  rw [List.append_nil]
  by_cases hq : v ∈ σ.splitAll.1
  · -- a quantified variable stays where it is
    obtain ⟨i, -, hi, -⟩ | ⟨hnot, -⟩ := resolve_cases σ.splitAll.1.reverse v
    · rw [if_pos hq, Ty.namelessIn, hi, Ty.Nameless.bind]
    · exact absurd (List.mem_reverse.mpr hq) hnot
  · rw [if_neg hq, MiniML.resolve_eq_free (by simpa using hq), Ty.Nameless.bind]
    refine Ty.namelessIn_eq_nameless fun u hu => ?_
    rw [List.mem_reverse]
    exact h.not_quantified (Ty.mem_freeVars_iff_splitAll.mpr ⟨hv, hq⟩) hu

end MiniML.Subst
