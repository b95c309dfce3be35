/-
  MiniML/Proofs/Term/Substitution.lean
  ====================================
  **Substitution without capture** — `subst` renames no binder, so it is right only if no
  name that the term binds is free in the replacement.  Under this condition it is
  nameless substitution (`nameless_subst_eq`), and everything else follows the nameless
  forms: what is free in the result, and that the names of binders do not matter.

  A binder of the replaced name hides it.  For `abs` this is the whole form, for `letIn`
  the body but not the value.
-/
import MiniML.Proofs.Term.Renaming

namespace MiniML

/-- The nameless term with `u`, which points to no binder outside it, in the place of the
    free variable `x`.  Nothing can be captured, since binders have no names. -/
def Nameless.subst (t : Nameless) (x : String) (u : Nameless) : Nameless :=
  t.bind (Function.update (fun y => .var (.free y)) x u)

namespace Term

variable {x y : String} {r t : Term}

theorem nameless_subst_eq (h : ∀ y ∈ t.boundNames, y ∉ r.freeVars) :
    (subst x r t).nameless = t.nameless.subst x r.nameless := by
  have hsubst := namelessIn_subst (σ := fun y => .var (.free y)) (Γ := []) (x := x) (a := r)
    (t := t) (by simp) (by simp) fun y hr ht => h y ht hr
  rwa [Nameless.bind_free, Nameless.bind_free] at hsubst

/-! ### Free variables -/

theorem subst_eq_self (h : x ∉ t.freeVars) : subst x r t = t := by
  -- below a binder of `x` nothing is replaced, below another one `x` is not free either
  have hbinder : ∀ {y : String} {b : Term}, (x ∉ b.freeVars → subst x r b = b) →
      (x ≠ y → x ∉ b.freeVars) → (if y = x then b else subst x r b) = b := by
    intro y b ih hb
    by_cases hyx : y = x
    · rw [if_pos hyx]
    · rw [if_neg hyx, ih (hb (Ne.symm hyx))]
  induction t with
  | var y =>
    rw [mem_freeVars_var] at h
    rw [subst, if_neg (Ne.symm h)]
  | int | nil | unit | region => rfl
  | abs y b ih =>
    rw [mem_freeVars_abs, not_and] at h
    rw [subst_abs, hbinder ih h]
  | letIn y v b ihv ihb =>
    rw [mem_freeVars_letIn, not_or, not_and] at h
    rw [subst, ihv h.1, hbinder ihb h.2]
  | head b ih | tail b ih | fix b ih | mkRef b ih | deref b ih => rw [subst, ih h]
  | app b c ih ih' | cons b c ih ih' | add b c ih ih' | sub b c ih ih' | assign b c ih ih' =>
    simp only [freeVars, Std.ExtTreeSet.mem_union_iff, not_or] at h
    rw [subst, ih h.1, ih' h.2]
  | ifZero b c d ih ih' ih'' | ifEmpty b c d ih ih' ih'' =>
    simp only [freeVars, Std.ExtTreeSet.mem_union_iff, not_or] at h
    rw [subst, ih h.1.1, ih' h.1.2, ih'' h.2]

/-- What was free stays free, the replaced variable apart; what is free in the replacement
    becomes free where the variable was. -/
theorem mem_freeVars_subst_of (ht : ∀ z ∈ t.boundNames, z ∉ r.freeVars)
    (h : (y ∈ t.freeVars ∧ y ≠ x) ∨ (y ∈ r.freeVars ∧ x ∈ t.freeVars)) :
    y ∈ (subst x r t).freeVars := by
  -- what a binder of `z` leaves free in its body stays free in the new body, and is not `z`
  have hbinder : ∀ {z : String} {b : Term}, z ∉ r.freeVars →
      ((y ∈ b.freeVars ∧ y ≠ x) ∨ (y ∈ r.freeVars ∧ x ∈ b.freeVars) →
        y ∈ (subst x r b).freeVars) →
      ((y ≠ z ∧ y ∈ b.freeVars) ∧ y ≠ x) ∨ (y ∈ r.freeVars ∧ x ≠ z ∧ x ∈ b.freeVars) →
      y ≠ z ∧ y ∈ (if z = x then b else subst x r b).freeVars := by
    rintro z b hz ih (⟨⟨hyz, hy⟩, hyx⟩ | ⟨hy, hxz, hx⟩)
    · refine ⟨hyz, ?_⟩
      split
      · exact hy
      · exact ih (.inl ⟨hy, hyx⟩)
    · refine ⟨fun hyz => hz (hyz ▸ hy), ?_⟩
      rw [if_neg (Ne.symm hxz)]
      exact ih (.inr ⟨hy, hx⟩)
  induction t with
  | var z =>
    rw [subst]
    obtain ⟨hy, hyx⟩ | ⟨hy, hx⟩ := h
    · rw [if_neg (mem_freeVars_var.mp hy ▸ hyx)]
      exact hy
    · rw [if_pos (mem_freeVars_var.mp hx).symm]
      exact hy
  | int | nil | unit | region => simp [freeVars] at h
  | abs z b ih =>
    simp only [boundNames, List.forall_mem_cons] at ht
    rw [mem_freeVars_abs, mem_freeVars_abs] at h
    rw [subst_abs, mem_freeVars_abs]
    exact hbinder ht.1 (ih ht.2) h
  | letIn z v b ihv ihb =>
    simp only [boundNames, List.forall_mem_cons, List.forall_mem_append] at ht
    rw [mem_freeVars_letIn, mem_freeVars_letIn] at h
    rw [subst, mem_freeVars_letIn]
    obtain ⟨hy | hy, hyx⟩ | ⟨hy, hx | hx⟩ := h
    · exact .inl (ihv ht.2.1 (.inl ⟨hy, hyx⟩))
    · exact .inr (hbinder ht.1 (ihb ht.2.2) (.inl ⟨hy, hyx⟩))
    · exact .inl (ihv ht.2.1 (.inr ⟨hy, hx⟩))
    · exact .inr (hbinder ht.1 (ihb ht.2.2) (.inr ⟨hy, hx⟩))
  | head b ih | tail b ih | fix b ih | mkRef b ih | deref b ih => exact ih ht h
  | app b c ih ih' | cons b c ih ih' | add b c ih ih' | sub b c ih ih' | assign b c ih ih' =>
    simp only [boundNames, List.forall_mem_append] at ht
    simp only [subst, freeVars, Std.ExtTreeSet.mem_union_iff] at h ⊢
    obtain ⟨hy | hy, hyx⟩ | ⟨hy, hx | hx⟩ := h
    · exact .inl (ih ht.1 (.inl ⟨hy, hyx⟩))
    · exact .inr (ih' ht.2 (.inl ⟨hy, hyx⟩))
    · exact .inl (ih ht.1 (.inr ⟨hy, hx⟩))
    · exact .inr (ih' ht.2 (.inr ⟨hy, hx⟩))
  | ifZero b c d ih ih' ih'' | ifEmpty b c d ih ih' ih'' =>
    simp only [boundNames, List.forall_mem_append] at ht
    simp only [subst, freeVars, Std.ExtTreeSet.mem_union_iff] at h ⊢
    obtain ⟨(hy | hy) | hy, hyx⟩ | ⟨hy, (hx | hx) | hx⟩ := h
    · exact .inl (.inl (ih ht.1.1 (.inl ⟨hy, hyx⟩)))
    · exact .inl (.inr (ih' ht.1.2 (.inl ⟨hy, hyx⟩)))
    · exact .inr (ih'' ht.2 (.inl ⟨hy, hyx⟩))
    · exact .inl (.inl (ih ht.1.1 (.inr ⟨hy, hx⟩)))
    · exact .inl (.inr (ih' ht.1.2 (.inr ⟨hy, hx⟩)))
    · exact .inr (ih'' ht.2 (.inr ⟨hy, hx⟩))

theorem freeVars_subst (h : ∀ y ∈ t.boundNames, y ∉ r.freeVars) :
    (subst x r t).freeVars = t.freeVars.erase x ∪ (if x ∈ t.freeVars then r.freeVars else ∅) := by
  refine Std.ExtTreeSet.ext_mem fun y => ?_
  rw [Std.ExtTreeSet.mem_union_iff, Std.ExtTreeSet.mem_erase, Ne,
    Std.LawfulEqCmp.compare_eq_iff_eq, eq_comm (a := x)]
  constructor
  · intro hy
    obtain ⟨hy, hyx⟩ | ⟨hy, hx⟩ := mem_freeVars_subst hy
    · exact .inl ⟨hyx, hy⟩
    · rw [if_pos hx]
      exact .inr hy
  · rintro (⟨hyx, hy⟩ | hy)
    · exact mem_freeVars_subst_of h (.inl ⟨hy, hyx⟩)
    · split at hy
      · rename_i hx
        exact mem_freeVars_subst_of h (.inr ⟨hy, hx⟩)
      · simp at hy

/-- **Substitution does not capture if no name that the term binds is free in the
    replacement.**  Then it is nameless substitution; the replaced variable is no longer
    free, and what is free in the replacement is free in the result exactly if the variable
    was free; a term in which the variable is not free stays as it is; and the names of the
    term's binders do not matter. -/
theorem subst_avoids_capture (t : Term) (x : String) (r : Term)
    (h : ∀ y ∈ t.boundNames, y ∉ r.freeVars) :
    (subst x r t).nameless = t.nameless.subst x r.nameless ∧
      (subst x r t).freeVars = t.freeVars.erase x ∪ (if x ∈ t.freeVars then r.freeVars else ∅) ∧
      (x ∉ t.freeVars → subst x r t = t) ∧
      ∀ t' : Term, (∀ y ∈ t'.boundNames, y ∉ r.freeVars) → t.alphaEq t' = true →
        (subst x r t).alphaEq (subst x r t') = true := by
  refine ⟨nameless_subst_eq h, freeVars_subst h, subst_eq_self, fun t' h' heq => ?_⟩
  rw [alphaEq_iff, nameless_subst_eq h, nameless_subst_eq h', alphaEq_iff.mp heq]

/-- `let x = x in x y` below a binder of `y`: the value changes, the body does not.  The
    other term names its binders differently. -/
theorem subst_avoids_capture_letIn :
    let t : Term := .abs "y" (.letIn "x" (.var "x") (.app (.var "x") (.var "y")))
    let t' : Term := .abs "v" (.letIn "w" (.var "x") (.app (.var "w") (.var "v")))
    let r : Term := .abs "x" (.app (.var "x") (.var "z"))
    (subst "x" r t).nameless = .abs (.letIn (.abs (.app (.var (.bound 0)) (.var (.free "z"))))
        (.app (.var (.bound 0)) (.var (.bound 1)))) ∧
      "z" ∈ (subst "x" r t).freeVars ∧ subst "z" r t = t ∧
      (subst "x" r t).alphaEq (subst "x" r t') = true := by
  intro t t' r
  have hfree : ∀ {y : String}, y ∈ r.freeVars → y = "z" := by
    intro y hy
    obtain ⟨hyx, hy⟩ := mem_freeVars_abs.mp hy
    rw [freeVars, Std.ExtTreeSet.mem_union_iff, mem_freeVars_var, mem_freeVars_var] at hy
    exact hy.resolve_left hyx
  have ht : ∀ y ∈ t.boundNames, y ∉ r.freeVars := by
    intro y hy hr
    rw [hfree hr] at hy
    exact absurd hy (by decide)
  have ht' : ∀ y ∈ t'.boundNames, y ∉ r.freeVars := by
    intro y hy hr
    rw [hfree hr] at hy
    exact absurd hy (by decide)
  obtain ⟨hform, hfv, -, halpha⟩ := subst_avoids_capture t "x" r ht
  obtain ⟨-, -, hself, -⟩ := subst_avoids_capture t "z" r ht
  refine ⟨hform.trans (by cbv), ?_, hself ?_, halpha t' ht' (by cbv)⟩
  · rw [hfv]
    decide
  · decide

end Term

end MiniML
