/-
  MiniML/Proofs/Ty/Mono.lean
  ==========================
  **Monotypes and the replacement of variables** — a monotype is a type without
  quantifiers.  `Ty.bind f` replaces every variable `x` by `f x` at once, where
  `f` is any function from names to types.

  The substitutions that inference computes are finite maps that resolve their
  own bindings; here they are just one way to obtain such an `f`.  The facts
  below are the ones that make types an algebra over their variables: `bind`
  composes, depends on the variables of the type only, and determines its
  function on them.
-/
import MiniML.Ty.Basic

namespace MiniML.Ty

/-- Types without quantifiers. -/
@[grind =] def Mono : Ty → Prop
  | .var _ | .int | .unit => True
  | .arrow a b => a.Mono ∧ b.Mono
  | .list e => e.Mono
  | .ref c => c.Mono
  | .all _ _ => False

/-- Replaces every free variable `x` by `f x`.  A quantifier shadows its
    variable; nothing is renamed. -/
@[grind =] def bind (f : String → Ty) : Ty → Ty
  | .var x => f x
  | .arrow a b => .arrow (a.bind f) (b.bind f)
  | .int => .int
  | .list e => .list (e.bind f)
  | .unit => .unit
  | .ref c => .ref (c.bind f)
  | .all v b => .all v (b.bind fun x => if x = v then .var x else f x)

attribute [grind =] freeVars occurs

/-! ### Free variables as a set -/

@[simp] theorem mem_freeVars_var {x y : String} : y ∈ (Ty.var x).freeVars ↔ y = x := by
  simp [freeVars]

@[simp] theorem mem_freeVars_arrow {x : String} {a b : Ty} :
    x ∈ (Ty.arrow a b).freeVars ↔ x ∈ a.freeVars ∨ x ∈ b.freeVars := by
  simp only [freeVars, List.mem_append, List.mem_filter, decide_eq_true_eq]
  by_cases h : x ∈ a.freeVars <;> simp [h]

@[simp] theorem mem_freeVars_all {x v : String} {b : Ty} :
    x ∈ (Ty.all v b).freeVars ↔ x ∈ b.freeVars ∧ x ≠ v := by
  simp [freeVars]

@[simp] theorem freeVars_list (e : Ty) : (Ty.list e).freeVars = e.freeVars := rfl

@[simp] theorem freeVars_ref (c : Ty) : (Ty.ref c).freeVars = c.freeVars := rfl

@[simp] theorem freeVars_int : Ty.int.freeVars = [] := rfl

@[simp] theorem freeVars_unit : Ty.unit.freeVars = [] := rfl

/-- The occurs test finds exactly the free variables. -/
theorem occurs_iff (x : String) (t : Ty) : t.occurs x = true ↔ x ∈ t.freeVars := by
  induction t with
  | var y =>
    simp only [occurs, beq_iff_eq, mem_freeVars_var]
    exact eq_comm
  | arrow a b iha ihb => simp [occurs, iha, ihb]
  | int | unit => simp [occurs]
  | list e ih => exact ih
  | ref c ih => exact ih
  | all v b ih =>
    simp only [occurs, Bool.and_eq_true, bne_iff_ne, ih, mem_freeVars_all, ne_comm (a := x)]
    exact and_comm

/-! ### The algebra of `bind` -/

/-- Replacing every variable by itself changes nothing. -/
@[simp] theorem bind_var (t : Ty) : t.bind .var = t := by
  induction t with
  | arrow a b iha ihb => simp only [bind, iha, ihb]
  | list e ih => simp only [bind, ih]
  | ref c ih => simp only [bind, ih]
  | all v b ih => simp only [bind, ite_self]; exact congrArg (Ty.all v) ih
  | _ => rfl

/-- `bind` depends on the free variables of the type only. -/
theorem bind_congr {f g : String → Ty} {t : Ty} (h : ∀ x ∈ t.freeVars, f x = g x) :
    t.bind f = t.bind g := by
  induction t generalizing f g with
  | var x => exact h x (by simp)
  | arrow a b iha ihb =>
    simp only [bind, iha fun x hx => h x (by simp [hx]), ihb fun x hx => h x (by simp [hx])]
  | list e ih => exact congrArg Ty.list (ih h)
  | ref c ih => exact congrArg Ty.ref (ih h)
  | all v b ih =>
    refine congrArg (Ty.all v) (ih fun x hx => ?_)
    by_cases hxv : x = v
    · simp [hxv]
    · simp only [hxv, if_false]
      exact h x (by simp [hx, hxv])
  | int | unit => rfl

/-- A type whose variables all stay keeps its form. -/
theorem bind_eq_self {f : String → Ty} {t : Ty} (h : ∀ x ∈ t.freeVars, f x = .var x) :
    t.bind f = t := by
  rw [bind_congr h, bind_var]

/-- The result of `bind` determines what it put in the place of each variable. -/
theorem eq_of_bind_eq {f g : String → Ty} {t : Ty} (h : t.bind f = t.bind g) :
    ∀ x ∈ t.freeVars, f x = g x := by
  induction t generalizing f g with
  | var y =>
    intro x hx
    obtain rfl := mem_freeVars_var.mp hx
    exact h
  | arrow a b iha ihb =>
    intro x hx
    simp only [bind, Ty.arrow.injEq] at h
    rcases mem_freeVars_arrow.mp hx with hx | hx
    · exact iha h.1 x hx
    · exact ihb h.2 x hx
  | list e ih => exact ih (Ty.list.inj h)
  | ref c ih => exact ih (Ty.ref.inj h)
  | all v b ih =>
    intro x hx
    obtain ⟨hx, hxv⟩ := mem_freeVars_all.mp hx
    have hb := ih (Ty.all.inj h).2 x hx
    simpa only [hxv, if_false] using hb
  | int | unit => simp

/-- On a monotype, two replacements in a row are one. -/
theorem bind_bind {f g : String → Ty} {t : Ty} (h : t.Mono) :
    (t.bind f).bind g = t.bind fun x => (f x).bind g := by
  induction t with
  | arrow a b iha ihb => simp only [bind, iha h.1, ihb h.2]
  | list e ih => exact congrArg Ty.list (ih h)
  | ref c ih => exact congrArg Ty.ref (ih h)
  | all v b => exact h.elim
  | var | int | unit => rfl

/-- The variables of `t.bind f` are those that `f` puts in the place of variables
    of `t`. -/
theorem mem_freeVars_bind {f : String → Ty} {t : Ty} (h : t.Mono) {y : String} :
    y ∈ (t.bind f).freeVars ↔ ∃ x ∈ t.freeVars, y ∈ (f x).freeVars := by
  induction t with
  | var x => simp [bind]
  | arrow a b iha ihb =>
    simp only [bind, mem_freeVars_arrow, iha h.1, ihb h.2, or_and_right, exists_or]
  | list e ih => exact ih h
  | ref c ih => exact ih h
  | all v b => exact h.elim
  | int | unit => simp [bind]

/-- `bind` makes a monotype of a monotype exactly when it puts monotypes in. -/
theorem mono_bind_iff {f : String → Ty} {t : Ty} (h : t.Mono) :
    (t.bind f).Mono ↔ ∀ x ∈ t.freeVars, (f x).Mono := by
  induction t with
  | var x => simp [bind]
  | arrow a b iha ihb =>
    simp only [bind, Mono, iha h.1, ihb h.2, mem_freeVars_arrow, or_imp, forall_and]
  | list e ih => exact ih h
  | ref c ih => exact ih h
  | all v b => exact h.elim
  | int | unit => simp [bind, Mono]

theorem Mono.bind {f : String → Ty} {t : Ty} (h : t.Mono) (hf : ∀ x, (f x).Mono) :
    (t.bind f).Mono :=
  (mono_bind_iff h).mpr fun x _ => hf x

/-! ### Size -/

def nodes : Ty → Nat
  | .var _ | .int | .unit => 1
  | .arrow a b => a.nodes + b.nodes + 1
  | .list e => e.nodes + 1
  | .ref c => c.nodes + 1
  | .all _ b => b.nodes + 1

/-- What stands for a variable of a monotype is a part of the whole. -/
theorem nodes_le_nodes_bind {f : String → Ty} {t : Ty} (h : t.Mono) {x : String}
    (hx : x ∈ t.freeVars) : (f x).nodes ≤ (t.bind f).nodes := by
  induction t with
  | var y =>
    obtain rfl := mem_freeVars_var.mp hx
    exact Nat.le_refl _
  | arrow a b iha ihb =>
    rcases mem_freeVars_arrow.mp hx with hx | hx
    · have := iha h.1 hx
      simp only [bind, nodes]
      omega
    · have := ihb h.2 hx
      simp only [bind, nodes]
      omega
  | list e ih => exact Nat.le_succ_of_le (ih h hx)
  | ref c ih => exact Nat.le_succ_of_le (ih h hx)
  | all v b => exact h.elim
  | int | unit => simp at hx

/-- No replacement makes a variable equal to a larger type that contains it. -/
theorem bind_ne_of_mem_freeVars {f : String → Ty} {t : Ty} {x : String} (h : t.Mono)
    (hx : x ∈ t.freeVars) (ht : t ≠ .var x) : f x ≠ t.bind f := by
  intro heq
  have hlt : (f x).nodes < (t.bind f).nodes := by
    cases t with
    | var y => exact absurd (congrArg Ty.var (mem_freeVars_var.mp hx)).symm ht
    | arrow a b =>
      rcases mem_freeVars_arrow.mp hx with hx | hx
      · have := nodes_le_nodes_bind (f := f) h.1 hx
        simp only [bind, nodes]
        omega
      · have := nodes_le_nodes_bind (f := f) h.2 hx
        simp only [bind, nodes]
        omega
    | list e => exact Nat.lt_succ_of_le (nodes_le_nodes_bind (t := e) h hx)
    | ref c => exact Nat.lt_succ_of_le (nodes_le_nodes_bind (t := c) h hx)
    | all v b => exact h.elim
    | int | unit => simp at hx
  rw [← heq] at hlt
  exact Nat.lt_irrefl _ hlt

end MiniML.Ty
