/-
  MiniML/Proofs/Ty/Occurrences.lean
  =================================
  **Where variables occur** — the occurs check, the list of free variables and the
  replacement of one variable look at the same occurrences.

  An occurrence is a position in the type with no quantifier of its name above it
  (`FreeAt`); from left to right means the lexicographic order of positions.  The list
  of free variables is put together from the lists of the parts.  One walk with the
  quantifiers passed and the names seen so far gives the same list (`collect_eq`).
-/
import MiniML.Proofs.Ty.Scheme

namespace MiniML.Ty

/-! ### Positions -/

/-- `x` occurs free at the position: the way down from the top, with 1 for the right of
    an arrow and 0 for every other part.  A name may be free at one position and bound
    at another. -/
inductive FreeAt (x : String) : Ty → List Nat → Prop where
  | here : FreeAt x (.var x) []
  | dom {a b p} (h : FreeAt x a p) : FreeAt x (.arrow a b) (0 :: p)
  | cod {a b p} (h : FreeAt x b p) : FreeAt x (.arrow a b) (1 :: p)
  | elem {e p} (h : FreeAt x e p) : FreeAt x (.list e) (0 :: p)
  | content {c p} (h : FreeAt x c p) : FreeAt x (.ref c) (0 :: p)
  | body {v b p} (hv : x ≠ v) (h : FreeAt x b p) : FreeAt x (.all v b) (0 :: p)

/-- Some occurrence of `x` stands to the left of all those of `y`. -/
def Leads (t : Ty) (x y : String) : Prop :=
  ∃ p, FreeAt x t p ∧ ∀ q, FreeAt y t q → p < q

theorem mem_freeVars_iff_freeAt {t : Ty} {x : String} : x ∈ t.freeVars ↔ ∃ p, FreeAt x t p := by
  constructor
  · intro hx
    induction t with
    | var y =>
      obtain rfl := mem_freeVars_var.mp hx
      exact ⟨[], .here⟩
    | arrow a b iha ihb =>
      rcases mem_freeVars_arrow.mp hx with hx | hx
      · exact (iha hx).imp' (0 :: ·) fun _ => .dom
      · exact (ihb hx).imp' (1 :: ·) fun _ => .cod
    | int | unit => simp at hx
    | list e ih => exact (ih hx).imp' (0 :: ·) fun _ => .elem
    | ref c ih => exact (ih hx).imp' (0 :: ·) fun _ => .content
    | all v b ih =>
      obtain ⟨hx, hv⟩ := mem_freeVars_all.mp hx
      exact (ih hx).imp' (0 :: ·) fun _ => .body hv
  · rintro ⟨p, hp⟩
    induction hp with
    | here => exact mem_freeVars_var.mpr rfl
    | dom _ ih => exact mem_freeVars_arrow.mpr (.inl ih)
    | cod _ ih => exact mem_freeVars_arrow.mpr (.inr ih)
    | elem _ ih | content _ ih => exact ih
    | body hv _ ih => exact mem_freeVars_all.mpr ⟨ih, hv⟩

/-! ### The order of the list -/

section Order

variable {a b e c : Ty} {v x y : String}

theorem Leads.arrow_left (h : a.Leads x y) : (Ty.arrow a b).Leads x y := by
  obtain ⟨p, hp, hleft⟩ := h
  refine ⟨0 :: p, .dom hp, fun q hq => ?_⟩
  cases hq with
  | dom hq => exact List.cons_lt_cons_iff.mpr (.inr ⟨rfl, hleft _ hq⟩)
  | cod _ => exact List.cons_lt_cons_iff.mpr (.inl Nat.one_pos)

/-- What is free on the left of an arrow comes before what is free only on its right. -/
theorem leads_across (hx : x ∈ a.freeVars) (hy : y ∉ a.freeVars) : (Ty.arrow a b).Leads x y := by
  obtain ⟨p, hp⟩ := mem_freeVars_iff_freeAt.mp hx
  refine ⟨0 :: p, .dom hp, fun q hq => ?_⟩
  cases hq with
  | dom hq => exact absurd (mem_freeVars_iff_freeAt.mpr ⟨_, hq⟩) hy
  | cod _ => exact List.cons_lt_cons_iff.mpr (.inl Nat.one_pos)

theorem Leads.arrow_right (h : b.Leads x y) (hy : y ∉ a.freeVars) :
    (Ty.arrow a b).Leads x y := by
  obtain ⟨p, hp, hleft⟩ := h
  refine ⟨1 :: p, .cod hp, fun q hq => ?_⟩
  cases hq with
  | dom hq => exact absurd (mem_freeVars_iff_freeAt.mpr ⟨_, hq⟩) hy
  | cod hq => exact List.cons_lt_cons_iff.mpr (.inr ⟨rfl, hleft _ hq⟩)

theorem Leads.list (h : e.Leads x y) : (Ty.list e).Leads x y := by
  obtain ⟨p, hp, hleft⟩ := h
  refine ⟨0 :: p, .elem hp, fun q hq => ?_⟩
  cases hq with
  | elem hq => exact List.cons_lt_cons_iff.mpr (.inr ⟨rfl, hleft _ hq⟩)

theorem Leads.ref (h : c.Leads x y) : (Ty.ref c).Leads x y := by
  obtain ⟨p, hp, hleft⟩ := h
  refine ⟨0 :: p, .content hp, fun q hq => ?_⟩
  cases hq with
  | content hq => exact List.cons_lt_cons_iff.mpr (.inr ⟨rfl, hleft _ hq⟩)

theorem Leads.all (h : b.Leads x y) (hx : x ≠ v) : (Ty.all v b).Leads x y := by
  obtain ⟨p, hp, hleft⟩ := h
  refine ⟨0 :: p, .body hx hp, fun q hq => ?_⟩
  cases hq with
  | body _ hq => exact List.cons_lt_cons_iff.mpr (.inr ⟨rfl, hleft _ hq⟩)

end Order

/-- The free variables are listed by their first occurrences from left to right. -/
theorem pairwise_leads (t : Ty) : t.freeVars.Pairwise t.Leads := by
  induction t with
  | var x => exact List.pairwise_singleton _ _
  | arrow a b iha ihb =>
    refine List.pairwise_append.mpr ⟨iha.imp fun h => h.arrow_left, ?_, ?_⟩
    · refine List.pairwise_filter.mpr (ihb.imp fun h _ hy => h.arrow_right ?_)
      exact of_decide_eq_true hy
    · intro x hx y hy
      exact leads_across hx (of_decide_eq_true (List.mem_filter.mp hy).2)
  | int | unit => exact List.Pairwise.nil
  | list e ih => exact ih.imp fun h => h.list
  | ref c ih => exact ih.imp fun h => h.ref
  | all v b ih =>
    refine List.pairwise_filter.mpr (ih.imp fun h hx _ => h.all ?_)
    exact of_decide_eq_true hx

/-! ### One walk -/

/-- Adds the free variables to those seen so far, in one walk that knows the quantifiers
    above it. -/
def collect : List String → List String → Ty → List String
  | bound, seen, .var x => if x ∈ bound ∨ x ∈ seen then seen else seen ++ [x]
  | bound, seen, .arrow a b => collect bound (collect bound seen a) b
  | _, seen, .int | _, seen, .unit => seen
  | bound, seen, .list e => collect bound seen e
  | bound, seen, .ref c => collect bound seen c
  | bound, seen, .all v b => collect (v :: bound) seen b

/-- The walk adds what is neither quantified above nor seen already. -/
theorem collect_eq (t : Ty) (bound seen : List String) :
    t.collect bound seen = seen ++ t.freeVars.filter fun x => x ∉ bound ∧ x ∉ seen := by
  induction t generalizing bound seen with
  | var x =>
    by_cases hx : x ∈ bound ∨ x ∈ seen
    · have hskip : ¬ (x ∉ bound ∧ x ∉ seen) := by tauto
      simp [collect, freeVars, hx, hskip]
    · simp [collect, freeVars, not_or.mp hx]
  | arrow a b iha ihb =>
    rw [collect, iha, ihb, List.append_assoc, freeVars, List.filter_append, List.filter_filter]
    refine congrArg (seen ++ ·) (congrArg (_ ++ ·) (List.filter_congr fun x _ => ?_))
    rw [← Bool.decide_and, decide_eq_decide, List.mem_append, List.mem_filter]
    simp only [decide_eq_true_eq]
    tauto
  | int | unit => simp [collect, freeVars]
  | list e ih => exact ih bound seen
  | ref c ih => exact ih bound seen
  | all v b ih =>
    rw [collect, ih, freeVars, List.filter_filter]
    refine congrArg (seen ++ ·) (List.filter_congr fun x _ => ?_)
    rw [← Bool.decide_and, decide_eq_decide, List.mem_cons, not_or]
    tauto

theorem collect_nil (t : Ty) : t.collect [] [] = t.freeVars := by
  rw [collect_eq, List.nil_append, List.filter_eq_self]
  simp

/-! ### Replacing a variable -/

/-- Replacing a variable changes a type unless the variable does not occur in it or is
    replaced by itself. -/
theorem subst_eq_self_iff {t : Ty} {x : String} {r : Ty} :
    subst x r t = t ↔ x ∉ t.freeVars ∨ r = .var x := by
  induction t with
  | var y =>
    rw [subst, mem_freeVars_var]
    split
    · rename_i hyx
      simp [hyx]
    · rename_i hyx
      simp [Ne.symm hyx]
  | arrow a b iha ihb =>
    rw [subst, Ty.arrow.injEq, iha, ihb, mem_freeVars_arrow]
    tauto
  | int | unit => simp [subst]
  | list e ih => rw [subst, Ty.list.injEq, ih, freeVars_list]
  | ref c ih => rw [subst, Ty.ref.injEq, ih, freeVars_ref]
  | all v b ih =>
    rw [subst, mem_freeVars_all]
    split
    · rename_i hvx
      simp [hvx]
    · rename_i hvx
      rw [Ty.all.injEq, ih]
      simp [Ne.symm hvx]

/-- **The occurs check and the list of free variables see the same occurrences.**  A name
    passes the check if and only if it is listed, and it is listed if and only if it is
    free at some position.  The list repeats no name, is ordered by first occurrences
    from left to right, and is what one walk collects.  Replacing a variable leaves a
    type as it is exactly if the variable does not occur, or is put in its own place. -/
theorem occurs_agrees_with_freeVars (t : Ty) :
    (∀ x, t.occurs x = true ↔ x ∈ t.freeVars) ∧
    (∀ x, x ∈ t.freeVars ↔ ∃ p, FreeAt x t p) ∧
    t.freeVars.Nodup ∧ t.freeVars.Pairwise t.Leads ∧ t.freeVars = t.collect [] [] ∧
    ∀ x r, subst x r t = t ↔ t.occurs x = false ∨ r = .var x := by
  refine ⟨fun x => occurs_iff x t, fun x => mem_freeVars_iff_freeAt, nodup_freeVars t,
    pairwise_leads t, (collect_nil t).symm, fun x r => ?_⟩
  rw [subst_eq_self_iff, ← occurs_iff, Bool.not_eq_true]

/-- A name that is bound on the left of an arrow and free on its right counts there. -/
example : (Ty.arrow (.all "a" (.arrow (.var "a") (.var "b"))) (.arrow (.var "a") (.var "b"))).freeVars =
    ["b", "a"] := by
  decide

end MiniML.Ty
