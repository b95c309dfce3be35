/-
  MiniML/Proofs/Term/Nameless.lean
  ================================
  **Nameless terms** — terms in which an occurrence points at its binder by the
  number of binders in between, and only free variables have names.  Substitution
  cannot capture there: it is the reference against which the substitution on
  named terms, which renames nothing, is held.

  A term is translated under the list of the names that are bound around it, the
  nearest first.  `subst` agrees with nameless substitution as soon as no binder of
  the term is free in the replacement (`nameless_subst`).
-/
import Mathlib.Logic.Function.Basic
import MiniML.Term.Binding

namespace MiniML

/-- An occurrence of a variable: the number of binders between it and its own, or the
    name if it is free. -/
inductive Nameless.Var where
  | bound (index : Nat)
  | free (name : String)
deriving DecidableEq, Repr

/-- The forms of `Term` without the names of binders. -/
inductive Nameless where
  | var (v : Nameless.Var)
  | abs (body : Nameless)
  | app (func arg : Nameless)
  | letIn (value body : Nameless)
  | int (value : Int64)
  | nil
  | cons (head tail : Nameless)
  | head (list : Nameless)
  | tail (list : Nameless)
  | add (left right : Nameless)
  | sub (left right : Nameless)
  | ifZero (cond zero other : Nameless)
  | ifEmpty (cond empty other : Nameless)
  | fix (func : Nameless)
  | unit
  | mkRef (content : Nameless)
  | deref (ref : Nameless)
  | assign (ref value : Nameless)
  | region (id : Int64)
deriving DecidableEq, Repr, Inhabited

namespace Nameless

/-! ### Replacing variables -/

/-- Replaces every variable by what `f` makes of it below the given number of
    binders. -/
@[grind =] def replace (f : Nat → Var → Nameless) (d : Nat) : Nameless → Nameless
  | .var v => f d v
  | .abs b => .abs (b.replace f (d + 1))
  | .app g a => .app (g.replace f d) (a.replace f d)
  | .letIn v b => .letIn (v.replace f d) (b.replace f (d + 1))
  | .int n => .int n
  | .nil => .nil
  | .cons h t => .cons (h.replace f d) (t.replace f d)
  | .head l => .head (l.replace f d)
  | .tail l => .tail (l.replace f d)
  | .add l r => .add (l.replace f d) (r.replace f d)
  | .sub l r => .sub (l.replace f d) (r.replace f d)
  | .ifZero c t e => .ifZero (c.replace f d) (t.replace f d) (e.replace f d)
  | .ifEmpty c t e => .ifEmpty (c.replace f d) (t.replace f d) (e.replace f d)
  | .fix g => .fix (g.replace f d)
  | .unit => .unit
  | .mkRef e => .mkRef (e.replace f d)
  | .deref e => .deref (e.replace f d)
  | .assign r v => .assign (r.replace f d) (v.replace f d)
  | .region i => .region i

/-- A variable that points out of `d` binders points out of `n` more. -/
def shift (n d : Nat) : Var → Nameless
  | .bound i => .var (.bound (if i < d then i else i + n))
  | .free x => .var (.free x)

/-- The term as it stands below `n` more binders. -/
def lift (n : Nat) (t : Nameless) : Nameless := t.replace (shift n) 0

/-- What becomes of a variable below `d` binders when the binder around them is
    taken away and stands for `u`. -/
def point (u : Nameless) (d : Nat) : Var → Nameless
  | .bound i => if i < d then .var (.bound i) else if i = d then u.lift d else .var (.bound (i - 1))
  | .free x => .var (.free x)

/-- The body of a binder that stands for `u`. -/
def instantiate (b u : Nameless) : Nameless := b.replace (point u) 0

/-- What a variable becomes when the free names stand for terms. -/
def assigned (σ : String → Nameless) : Var → Nameless
  | .bound i => .var (.bound i)
  | .free x => σ x

/-- The term with all free names replaced by terms that point to no binder outside. -/
def bind (σ : String → Nameless) (t : Nameless) : Nameless := t.replace (fun _ => assigned σ) 0

/-- Every variable has the property at the number of binders around it. -/
@[grind =] def All (P : Nat → Var → Prop) (d : Nat) : Nameless → Prop
  | .var v => P d v
  | .abs b => b.All P (d + 1)
  | .app f a => f.All P d ∧ a.All P d
  | .letIn v b => v.All P d ∧ b.All P (d + 1)
  | .int _ | .nil | .unit | .region _ => True
  | .cons h t => h.All P d ∧ t.All P d
  | .head l | .tail l => l.All P d
  | .add l r | .sub l r => l.All P d ∧ r.All P d
  | .ifZero c t e | .ifEmpty c t e => c.All P d ∧ t.All P d ∧ e.All P d
  | .fix f => f.All P d
  | .mkRef e | .deref e => e.All P d
  | .assign r v => r.All P d ∧ v.All P d

/-- The variable points to one of `d` binders, or to none. -/
def Var.Below (d : Nat) : Var → Prop
  | .bound i => i < d
  | .free _ => True

/-- The term points to no binder outside it. -/
def Closed (t : Nameless) : Prop := t.All Var.Below 0

theorem All.mono {P Q : Nat → Var → Prop} {d e : Nat} {t : Nameless} (h : t.All P d)
    (hPQ : ∀ k v, P (d + k) v → Q (e + k) v) : t.All Q e := by
  induction t generalizing d e with
  | var v => exact hPQ 0 v h
  | int | nil | unit | region => exact trivial
  | abs b ih =>
    refine ih h fun k v hv => ?_
    rw [Nat.add_right_comm] at hv ⊢
    exact hPQ (k + 1) v hv
  | letIn v b ihv ihb =>
    refine ⟨ihv h.1 hPQ, ihb h.2 fun k v hv => ?_⟩
    rw [Nat.add_right_comm] at hv ⊢
    exact hPQ (k + 1) v hv
  | app f a ih ih' | cons f a ih ih' | add f a ih ih' | sub f a ih ih' | assign f a ih ih' =>
    exact ⟨ih h.1 hPQ, ih' h.2 hPQ⟩
  | ifZero c t e ih ih' ih'' | ifEmpty c t e ih ih' ih'' =>
    exact ⟨ih h.1 hPQ, ih' h.2.1 hPQ, ih'' h.2.2 hPQ⟩
  | head l ih | tail l ih | fix l ih | mkRef l ih | deref l ih => exact ih h hPQ

theorem All.replace_congr {f g : Nat → Var → Nameless} {d : Nat} {t : Nameless}
    (h : t.All (fun d v => f d v = g d v) d) : t.replace f d = t.replace g d := by
  induction t generalizing d with
  | var v => exact h
  | int | nil | unit | region => rfl
  | abs b ih => rw [replace, replace, ih h]
  | letIn v b ih ih' | app v b ih ih' | cons v b ih ih' | add v b ih ih' | sub v b ih ih'
  | assign v b ih ih' => rw [replace, replace, ih h.1, ih' h.2]
  | ifZero c t e ih ih' ih'' | ifEmpty c t e ih ih' ih'' =>
    rw [replace, replace, ih h.1, ih' h.2.1, ih'' h.2.2]
  | head l ih | tail l ih | fix l ih | mkRef l ih | deref l ih => rw [replace, replace, ih h]

theorem replace_var (d : Nat) (t : Nameless) : t.replace (fun _ => .var) d = t := by
  induction t generalizing d with
  | var | int | nil | unit | region => rfl
  | abs b ih | head b ih | tail b ih | fix b ih | mkRef b ih | deref b ih => rw [replace, ih]
  | letIn v b ih ih' | app v b ih ih' | cons v b ih ih' | add v b ih ih' | sub v b ih ih'
  | assign v b ih ih' => rw [replace, ih, ih']
  | ifZero c t e ih ih' ih'' | ifEmpty c t e ih ih' ih'' => rw [replace, ih, ih', ih'']

theorem All.replace_eq_self {f : Nat → Var → Nameless} {d : Nat} {t : Nameless}
    (h : t.All (fun d v => f d v = .var v) d) : t.replace f d = t :=
  (All.replace_congr h).trans (replace_var d t)

/-! ### Closed terms -/

/-- A term that points out of it nowhere stays as it is under any replacement that
    leaves the variables below it and the free names alone. -/
theorem Closed.replace_eq_self {f : Nat → Var → Nameless} {d : Nat} {t : Nameless}
    (h : t.Closed) (hf : ∀ k v, v.Below k → f (d + k) v = .var v) : t.replace f d = t :=
  All.replace_eq_self (All.mono h fun k v hv => hf k v (by rwa [Nat.zero_add] at hv))

theorem Closed.lift_eq {t : Nameless} (h : t.Closed) (n : Nat) : t.lift n = t := by
  refine h.replace_eq_self fun k v hv => ?_
  cases v with
  | bound i =>
    have hi : i < k := hv
    rw [shift, Nat.zero_add, if_pos hi]
  | free x => rfl

theorem Closed.point_eq {t : Nameless} (h : t.Closed) (u : Nameless) (d : Nat) :
    t.replace (point u) d = t := by
  refine h.replace_eq_self fun k v hv => ?_
  cases v with
  | bound i =>
    have hi : i < d + k := Nat.lt_of_lt_of_le hv (Nat.le_add_left k d)
    rw [point, if_pos hi]
  | free x => rfl

theorem replace_assigned (σ : String → Nameless) (d : Nat) (t : Nameless) :
    t.replace (fun _ => assigned σ) d = t.bind σ := by
  rw [bind]
  generalize 0 = e
  induction t generalizing d e with
  | var | int | nil | unit | region => rfl
  | abs b ih => rw [replace, replace, ih (d + 1) (e + 1)]
  | letIn v b ih ih' => rw [replace, replace, ih d e, ih' (d + 1) (e + 1)]
  | head b ih | tail b ih | fix b ih | mkRef b ih | deref b ih => rw [replace, replace, ih d e]
  | app v b ih ih' | cons v b ih ih' | add v b ih ih' | sub v b ih ih' | assign v b ih ih' =>
    rw [replace, replace, ih d e, ih' d e]
  | ifZero c t e' ih ih' ih'' | ifEmpty c t e' ih ih' ih'' =>
    rw [replace, replace, ih d e, ih' d e, ih'' d e]

theorem bind_free (t : Nameless) : (t.bind fun x => .var (.free x)) = t := by
  have hvar : (assigned fun x => .var (.free x)) = .var := by
    funext v
    cases v <;> rfl
  rw [bind, hvar, replace_var]

theorem bind_abs (σ : String → Nameless) (b : Nameless) :
    (abs b).bind σ = .abs (b.bind σ) := by
  rw [bind, replace, replace_assigned]

theorem bind_letIn (σ : String → Nameless) (v b : Nameless) :
    (letIn v b).bind σ = .letIn (v.bind σ) (b.bind σ) := by
  rw [bind, replace, replace_assigned, replace_assigned]

end Nameless

/-! ### The nameless form of a term -/

/-- Where a name points to below the listed binders. -/
def resolve : List String → String → Nameless.Var
  | [], x => .free x
  | y :: Γ, x =>
    if x = y then .bound 0
    else
      match resolve Γ x with
      | .bound i => .bound (i + 1)
      | .free z => .free z

theorem resolve_eq_free {Γ : List String} {x : String} (h : x ∉ Γ) : resolve Γ x = .free x := by
  induction Γ with
  | nil => rfl
  | cons y Γ ih =>
    rw [List.mem_cons, not_or] at h
    rw [resolve, if_neg h.1, ih h.2]

/-- A name points to one of the listed binders, and to the same one if there are more
    outside them, or it is free. -/
theorem resolve_cases (Γ : List String) (x : String) :
    (∃ i, i < Γ.length ∧ resolve Γ x = .bound i ∧ ∀ Δ, resolve (Γ ++ Δ) x = .bound i) ∨
      (x ∉ Γ ∧ resolve Γ x = .free x) := by
  induction Γ with
  | nil => exact .inr ⟨by simp, rfl⟩
  | cons y Γ ih =>
    by_cases hxy : x = y
    · refine .inl ⟨0, by simp, ?_, fun Δ => ?_⟩
      · rw [resolve, if_pos hxy]
      · rw [List.cons_append, resolve, if_pos hxy]
    · obtain ⟨i, hi, hΓ, hΔ⟩ | ⟨hnot, hfree⟩ := ih
      · refine .inl ⟨i + 1, by simpa using hi, ?_, fun Δ => ?_⟩
        · rw [resolve, if_neg hxy, hΓ]
        · rw [List.cons_append, resolve, if_neg hxy, hΔ Δ]
      · refine .inr ⟨by simp [hxy, hnot], ?_⟩
        rw [resolve, if_neg hxy, hfree]

theorem resolve_append_self {Γ : List String} {x : String} (h : x ∉ Γ) :
    resolve (Γ ++ [x]) x = .bound Γ.length := by
  induction Γ with
  | nil => rw [List.nil_append, resolve, if_pos rfl, List.length_nil]
  | cons y Γ ih =>
    rw [List.mem_cons, not_or] at h
    rw [List.cons_append, resolve, if_neg h.1, ih h.2, List.length_cons]

theorem resolve_cons_congr {Γ Δ : List String} {x y z w : String}
    (h : resolve Γ x = resolve Δ y) (hx : x ≠ z) (hy : y ≠ w) :
    resolve (z :: Γ) x = resolve (w :: Δ) y := by
  rw [resolve, resolve, if_neg hx, if_neg hy, h]

namespace Term

/-- The nameless form of a term below the listed binders, the nearest first. -/
@[grind =] def namelessIn (Γ : List String) : Term → Nameless
  | .var x => .var (resolve Γ x)
  | .abs x b => .abs (b.namelessIn (x :: Γ))
  | .app f a => .app (f.namelessIn Γ) (a.namelessIn Γ)
  | .letIn x v b => .letIn (v.namelessIn Γ) (b.namelessIn (x :: Γ))
  | .int n => .int n
  | .nil => .nil
  | .cons h t => .cons (h.namelessIn Γ) (t.namelessIn Γ)
  | .head l => .head (l.namelessIn Γ)
  | .tail l => .tail (l.namelessIn Γ)
  | .add l r => .add (l.namelessIn Γ) (r.namelessIn Γ)
  | .sub l r => .sub (l.namelessIn Γ) (r.namelessIn Γ)
  | .ifZero c t e => .ifZero (c.namelessIn Γ) (t.namelessIn Γ) (e.namelessIn Γ)
  | .ifEmpty c t e => .ifEmpty (c.namelessIn Γ) (t.namelessIn Γ) (e.namelessIn Γ)
  | .fix f => .fix (f.namelessIn Γ)
  | .unit => .unit
  | .mkRef e => .mkRef (e.namelessIn Γ)
  | .deref e => .deref (e.namelessIn Γ)
  | .assign r v => .assign (r.namelessIn Γ) (v.namelessIn Γ)
  | .region i => .region i

/-- The nameless form of a term. -/
def nameless (t : Term) : Nameless := t.namelessIn []

/-- The names that a term binds, with repetitions. -/
@[grind =] def boundNames : Term → List String
  | .var _ | .int _ | .nil | .unit | .region _ => []
  | .abs x b => x :: b.boundNames
  | .app f a => f.boundNames ++ a.boundNames
  | .letIn x v b => x :: (v.boundNames ++ b.boundNames)
  | .cons h t => h.boundNames ++ t.boundNames
  | .head l | .tail l => l.boundNames
  | .add l r | .sub l r => l.boundNames ++ r.boundNames
  | .ifZero c t e | .ifEmpty c t e => c.boundNames ++ t.boundNames ++ e.boundNames
  | .fix f => f.boundNames
  | .mkRef e | .deref e => e.boundNames
  | .assign r v => r.boundNames ++ v.boundNames

attribute [grind =] freeVars subst

theorem mem_freeVars_var {x y : String} : x ∈ (var y).freeVars ↔ x = y := by
  rw [eq_comm]
  simp [freeVars]

theorem mem_freeVars_abs {x y : String} {b : Term} :
    x ∈ (abs y b).freeVars ↔ x ≠ y ∧ x ∈ b.freeVars := by
  rw [freeVars, Std.ExtTreeSet.mem_erase, Ne, Std.LawfulEqCmp.compare_eq_iff_eq, eq_comm]

theorem mem_freeVars_letIn {x y : String} {v b : Term} :
    x ∈ (letIn y v b).freeVars ↔ x ∈ v.freeVars ∨ (x ≠ y ∧ x ∈ b.freeVars) := by
  rw [freeVars, Std.ExtTreeSet.mem_union_iff, ← freeVars, mem_freeVars_abs]

theorem namelessIn_congr {t : Term} {Γ Δ : List String}
    (h : ∀ x ∈ t.freeVars, resolve Γ x = resolve Δ x) : t.namelessIn Γ = t.namelessIn Δ := by
  induction t generalizing Γ Δ with
  | var x => rw [namelessIn, namelessIn, h x (mem_freeVars_var.mpr rfl)]
  | int | nil | unit | region => rfl
  | abs x b ih =>
    rw [namelessIn, namelessIn, ih fun y hy => ?_]
    by_cases hyx : y = x
    · rw [hyx, resolve, resolve, if_pos rfl, if_pos rfl]
    · exact resolve_cons_congr (h y (mem_freeVars_abs.mpr ⟨hyx, hy⟩)) hyx hyx
  | letIn x v b ihv ihb =>
    rw [namelessIn, namelessIn, ihv fun y hy => h y (mem_freeVars_letIn.mpr (.inl hy)),
      ihb fun y hy => ?_]
    by_cases hyx : y = x
    · rw [hyx, resolve, resolve, if_pos rfl, if_pos rfl]
    · exact resolve_cons_congr (h y (mem_freeVars_letIn.mpr (.inr ⟨hyx, hy⟩))) hyx hyx
  | head b ih | tail b ih | fix b ih | mkRef b ih | deref b ih =>
    rw [namelessIn, namelessIn, ih h]
  | app a b ih ih' | cons a b ih ih' | add a b ih ih' | sub a b ih ih' | assign a b ih ih' =>
    rw [namelessIn, namelessIn, ih fun y hy => h y (by simp [freeVars, hy]),
      ih' fun y hy => h y (by simp [freeVars, hy])]
  | ifZero c t e ih ih' ih'' | ifEmpty c t e ih ih' ih'' =>
    rw [namelessIn, namelessIn, ih fun y hy => h y (by simp [freeVars, hy]),
      ih' fun y hy => h y (by simp [freeVars, hy]), ih'' fun y hy => h y (by simp [freeVars, hy])]

theorem namelessIn_eq_nameless {t : Term} {Γ : List String} (h : ∀ x ∈ t.freeVars, x ∉ Γ) :
    t.namelessIn Γ = t.nameless :=
  namelessIn_congr fun x hx => resolve_eq_free (h x hx)

/-- The occurrences of a nameless form: they point to binders of the term or to the
    listed ones, or they are free variables of the term. -/
theorem all_namelessIn (t : Term) (Γ : List String) :
    (t.namelessIn Γ).All (fun d v => v.Below d ∧ ∀ x, v = .free x → x ∈ t.freeVars ∧ x ∉ Γ)
      Γ.length := by
  -- the occurrences of a part are occurrences of the whole
  have hpart : ∀ {t u : Term} {Γ : List String}, (∀ x ∈ t.freeVars, x ∈ u.freeVars) →
      (t.namelessIn Γ).All (fun d v => v.Below d ∧ ∀ x, v = .free x → x ∈ t.freeVars ∧ x ∉ Γ)
        Γ.length →
      (t.namelessIn Γ).All (fun d v => v.Below d ∧ ∀ x, v = .free x → x ∈ u.freeVars ∧ x ∉ Γ)
        Γ.length :=
    fun hsub h => h.mono fun _ _ hv => ⟨hv.1, fun x hx => ⟨hsub x (hv.2 x hx).1, (hv.2 x hx).2⟩⟩
  induction t generalizing Γ with
  | var x =>
    rw [namelessIn]
    obtain ⟨i, hi, hΓ, -⟩ | ⟨hx, hfree⟩ := resolve_cases Γ x
    · rw [hΓ]
      exact ⟨hi, by simp⟩
    · rw [hfree]
      refine ⟨trivial, ?_⟩
      rintro y ⟨⟩
      exact ⟨mem_freeVars_var.mpr rfl, hx⟩
  | int | nil | unit | region => exact trivial
  | abs y b ih =>
    refine (ih (y :: Γ)).mono fun k v hv => ⟨hv.1, fun x hx => ?_⟩
    obtain ⟨hb, hnot⟩ := hv.2 x hx
    rw [List.mem_cons, not_or] at hnot
    exact ⟨mem_freeVars_abs.mpr ⟨hnot.1, hb⟩, hnot.2⟩
  | letIn y w b ihw ihb =>
    refine ⟨hpart (fun x hx => mem_freeVars_letIn.mpr (.inl hx)) (ihw Γ), ?_⟩
    refine (ihb (y :: Γ)).mono fun k v hv => ⟨hv.1, fun x hx => ?_⟩
    obtain ⟨hb, hnot⟩ := hv.2 x hx
    rw [List.mem_cons, not_or] at hnot
    exact ⟨mem_freeVars_letIn.mpr (.inr ⟨hnot.1, hb⟩), hnot.2⟩
  | head b ih | tail b ih | fix b ih | mkRef b ih | deref b ih => exact ih Γ
  | app a b ih ih' | cons a b ih ih' | add a b ih ih' | sub a b ih ih' | assign a b ih ih' =>
    exact ⟨hpart (fun x hx => by simp [freeVars, hx]) (ih Γ),
      hpart (fun x hx => by simp [freeVars, hx]) (ih' Γ)⟩
  | ifZero c t e ih ih' ih'' | ifEmpty c t e ih ih' ih'' =>
    exact ⟨hpart (fun x hx => by simp [freeVars, hx]) (ih Γ),
      hpart (fun x hx => by simp [freeVars, hx]) (ih' Γ),
      hpart (fun x hx => by simp [freeVars, hx]) (ih'' Γ)⟩

theorem closed_nameless (t : Term) : t.nameless.Closed :=
  (t.all_namelessIn []).mono fun _ _ hv => hv.1

theorem bind_namelessIn_congr {t : Term} {Γ : List String} {σ τ : String → Nameless}
    (h : ∀ x ∈ t.freeVars, x ∉ Γ → σ x = τ x) :
    (t.namelessIn Γ).bind σ = (t.namelessIn Γ).bind τ := by
  rw [← Nameless.replace_assigned σ Γ.length, ← Nameless.replace_assigned τ Γ.length]
  refine ((t.all_namelessIn Γ).mono fun _ v hv => ?_).replace_congr
  cases v with
  | bound i => rfl
  | free x => exact h x (hv.2 x rfl).1 (hv.2 x rfl).2

/-! ### Substitution -/

theorem subst_abs (x : String) (a : Term) (y : String) (b : Term) :
    subst x a (.abs y b) = .abs y (if y = x then b else subst x a b) := by
  rw [subst]
  split <;> rfl

theorem mem_freeVars_subst {x y : String} {a t : Term} (h : y ∈ (subst x a t).freeVars) :
    (y ∈ t.freeVars ∧ y ≠ x) ∨ (y ∈ a.freeVars ∧ x ∈ t.freeVars) := by
  -- below a binder of `z` nothing is replaced if `z` is `x`
  have hbinder : ∀ {z : String} {b : Term},
      (y ∈ (subst x a b).freeVars →
        (y ∈ b.freeVars ∧ y ≠ x) ∨ (y ∈ a.freeVars ∧ x ∈ b.freeVars)) →
      y ≠ z → y ∈ (if z = x then b else subst x a b).freeVars →
      (y ∈ b.freeVars ∧ y ≠ x) ∨ (y ∈ a.freeVars ∧ x ≠ z ∧ x ∈ b.freeVars) := by
    intro z b ih hyz hy
    by_cases hzx : z = x
    · rw [if_pos hzx] at hy
      exact .inl ⟨hy, hzx ▸ hyz⟩
    · rw [if_neg hzx] at hy
      exact (ih hy).imp_right fun hx => ⟨hx.1, Ne.symm hzx, hx.2⟩
  induction t with
  | var z =>
    rw [subst] at h
    by_cases hzx : z = x
    · rw [if_pos hzx] at h
      exact .inr ⟨h, mem_freeVars_var.mpr hzx.symm⟩
    · rw [if_neg hzx] at h
      exact .inl ⟨h, mem_freeVars_var.mp h ▸ hzx⟩
  | int | nil | unit | region => exact absurd h (by simp [subst, freeVars])
  | abs z b ih =>
    rw [subst_abs, mem_freeVars_abs] at h
    rw [mem_freeVars_abs, mem_freeVars_abs]
    exact (hbinder ih h.1 h.2).imp_left fun hy => ⟨⟨h.1, hy.1⟩, hy.2⟩
  | letIn z v b ihv ihb =>
    rw [subst, mem_freeVars_letIn] at h
    rw [mem_freeVars_letIn, mem_freeVars_letIn]
    obtain hv | ⟨hyz, hb⟩ := h
    · exact (ihv hv).imp (fun hy => ⟨.inl hy.1, hy.2⟩) fun hx => ⟨hx.1, .inl hx.2⟩
    · exact (hbinder ihb hyz hb).imp (fun hy => ⟨.inr ⟨hyz, hy.1⟩, hy.2⟩)
        fun hx => ⟨hx.1, .inr hx.2⟩
  | head b ih | tail b ih | fix b ih | mkRef b ih | deref b ih => exact ih h
  | app b c ih ih' | cons b c ih ih' | add b c ih ih' | sub b c ih ih' | assign b c ih ih' =>
    simp only [subst, freeVars, Std.ExtTreeSet.mem_union_iff] at h ⊢
    obtain h | h := h
    · exact (ih h).imp (fun hy => ⟨.inl hy.1, hy.2⟩) fun hx => ⟨hx.1, .inl hx.2⟩
    · exact (ih' h).imp (fun hy => ⟨.inr hy.1, hy.2⟩) fun hx => ⟨hx.1, .inr hx.2⟩
  | ifZero b c d ih ih' ih'' | ifEmpty b c d ih ih' ih'' =>
    simp only [subst, freeVars, Std.ExtTreeSet.mem_union_iff] at h ⊢
    obtain (h | h) | h := h
    · exact (ih h).imp (fun hy => ⟨.inl (.inl hy.1), hy.2⟩) fun hx => ⟨hx.1, .inl (.inl hx.2)⟩
    · exact (ih' h).imp (fun hy => ⟨.inl (.inr hy.1), hy.2⟩) fun hx => ⟨hx.1, .inl (.inr hx.2)⟩
    · exact (ih'' h).imp (fun hy => ⟨.inr hy.1, hy.2⟩) fun hx => ⟨hx.1, .inr hx.2⟩

theorem mem_boundNames_subst {x y : String} {a t : Term} (h : y ∈ (subst x a t).boundNames) :
    y ∈ t.boundNames ∨ y ∈ a.boundNames := by
  -- below a binder of `x` nothing is replaced
  have hbinder : ∀ {z : String} {b : Term},
      (y ∈ (subst x a b).boundNames → y ∈ b.boundNames ∨ y ∈ a.boundNames) →
      y ∈ (if z = x then b else subst x a b).boundNames → y ∈ b.boundNames ∨ y ∈ a.boundNames := by
    intro z b ih hy
    split at hy
    · exact .inl hy
    · exact ih hy
  induction t with
  | var z =>
    rw [subst] at h
    split at h
    · exact .inr h
    · exact .inl h
  | int | nil | unit | region => exact .inl h
  | abs z b ih =>
    rw [subst_abs] at h
    simp only [boundNames, List.mem_cons] at h ⊢
    obtain h | h := h
    · exact .inl (.inl h)
    · exact (hbinder ih h).imp_left .inr
  | letIn z v b ihv ihb =>
    simp only [subst, boundNames, List.mem_cons, List.mem_append] at h ⊢
    obtain h | h | h := h
    · exact .inl (.inl h)
    · exact (ihv h).imp_left fun hy => .inr (.inl hy)
    · exact (hbinder ihb h).imp_left fun hy => .inr (.inr hy)
  | head b ih | tail b ih | fix b ih | mkRef b ih | deref b ih => exact ih h
  | app b c ih ih' | cons b c ih ih' | add b c ih ih' | sub b c ih ih' | assign b c ih ih' =>
    simp only [subst, boundNames, List.mem_append] at h ⊢
    obtain h | h := h
    · exact (ih h).imp_left .inl
    · exact (ih' h).imp_left .inr
  | ifZero b c d ih ih' ih'' | ifEmpty b c d ih ih' ih'' =>
    simp only [subst, boundNames, List.mem_append] at h ⊢
    obtain (h | h) | h := h
    · exact (ih h).imp_left fun hy => .inl (.inl hy)
    · exact (ih' h).imp_left fun hy => .inl (.inr hy)
    · exact (ih'' h).imp_left .inr

/-- Taking the outermost of some binders away and letting its name stand for a term. -/
theorem instantiate_namelessIn {σ : String → Nameless} (hσ : ∀ x, (σ x).Closed) {u : Nameless}
    (hu : u.Closed) (x : String) (t : Term) (Γ : List String) :
    ((t.namelessIn (Γ ++ [x])).bind σ).replace (.point u) Γ.length =
      (t.namelessIn Γ).bind (Function.update σ x u) := by
  -- what `bind` puts in does not depend on the depth, but the induction passes binders
  rw [Nameless.bind, Nameless.bind]
  generalize 0 = k
  induction t generalizing Γ k with
  | var y =>
    rw [namelessIn, namelessIn, Nameless.replace, Nameless.replace]
    obtain ⟨i, hi, hΓ, hΔ⟩ | ⟨hy, hfree⟩ := resolve_cases Γ y
    · rw [hΔ, hΓ, Nameless.assigned, Nameless.assigned, Nameless.replace, Nameless.point, if_pos hi]
    · rw [hfree, Nameless.assigned]
      by_cases hyx : y = x
      · subst hyx
        rw [resolve_append_self hy, Nameless.assigned, Nameless.replace, Nameless.point,
          if_neg (Nat.lt_irrefl _), if_pos rfl, hu.lift_eq, Function.update_self]
      · have hnot : y ∉ Γ ++ [x] := by simp [hy, hyx]
        rw [resolve_eq_free hnot, Nameless.assigned, (hσ y).point_eq, Function.update_of_ne hyx]
  | int | nil | unit | region => rfl
  | abs y b ih => exact congrArg Nameless.abs (ih (y :: Γ) (k + 1))
  | letIn y v b ihv ihb => exact congrArg₂ Nameless.letIn (ihv Γ k) (ihb (y :: Γ) (k + 1))
  | head b ih | tail b ih | fix b ih | mkRef b ih | deref b ih =>
    simp only [namelessIn, Nameless.replace, ih Γ k]
  | app a b ih ih' | cons a b ih ih' | add a b ih ih' | sub a b ih ih' | assign a b ih ih' =>
    simp only [namelessIn, Nameless.replace, ih Γ k, ih' Γ k]
  | ifZero c t e ih ih' ih'' | ifEmpty c t e ih ih' ih'' =>
    simp only [namelessIn, Nameless.replace, ih Γ k, ih' Γ k, ih'' Γ k]

theorem bind_update_of_mem {σ : String → Nameless} {x : String} {t : Term} {Γ : List String}
    (hx : x ∈ Γ) (u : Nameless) :
    (t.namelessIn Γ).bind (Function.update σ x u) = (t.namelessIn Γ).bind σ := by
  refine bind_namelessIn_congr fun y _ hy => Function.update_of_ne ?_ u σ
  rintro rfl
  exact hy hx

/-- Substitution makes a name stand for the replacement if no binder on the way to an
    occurrence is free in the replacement. -/
theorem namelessIn_subst {σ : String → Nameless} {x : String} {a t : Term} {Γ : List String}
    (hx : x ∉ Γ) (hΓ : ∀ y ∈ a.freeVars, y ∉ Γ) (ht : ∀ y ∈ a.freeVars, y ∉ t.boundNames) :
    ((subst x a t).namelessIn Γ).bind σ =
      (t.namelessIn Γ).bind (Function.update σ x (a.nameless.bind σ)) := by
  -- below a binder of `x` nothing is replaced, below another one the claim is the same
  have hbinder : ∀ {y : String} {b : Term} {Γ : List String}, x ∉ Γ →
      (∀ z ∈ a.freeVars, z ∉ y :: Γ) →
      (x ∉ y :: Γ → ((subst x a b).namelessIn (y :: Γ)).bind σ =
        (b.namelessIn (y :: Γ)).bind (Function.update σ x (a.nameless.bind σ))) →
      ((if y = x then b else subst x a b).namelessIn (y :: Γ)).bind σ =
        (b.namelessIn (y :: Γ)).bind (Function.update σ x (a.nameless.bind σ)) := by
    intro y b Γ hx hΓ ih
    by_cases hyx : y = x
    · rw [if_pos hyx, bind_update_of_mem (by simp [hyx])]
    · rw [if_neg hyx, ih (by simp [Ne.symm hyx, hx])]
  induction t generalizing Γ with
  | var y =>
    rw [subst, namelessIn]
    by_cases hyx : y = x
    · subst hyx
      rw [if_pos rfl, namelessIn_eq_nameless hΓ, resolve_eq_free hx, Nameless.bind,
        Nameless.bind, Nameless.replace, Nameless.assigned, Function.update_self]
    · rw [if_neg hyx, namelessIn]
      obtain ⟨i, -, hΓ, -⟩ | ⟨-, hfree⟩ := resolve_cases Γ y
      · rw [hΓ]
        rfl
      · rw [hfree, Nameless.bind, Nameless.bind, Nameless.replace, Nameless.replace,
          Nameless.assigned, Nameless.assigned, Function.update_of_ne hyx]
  | int | nil | unit | region => rfl
  | abs y b ih =>
    simp only [boundNames, List.mem_cons, not_or] at ht
    have hy : ∀ z ∈ a.freeVars, z ∉ y :: Γ := fun z hz => by simp [(ht z hz).1, hΓ z hz]
    rw [subst_abs, namelessIn, namelessIn, Nameless.bind_abs, Nameless.bind_abs,
      hbinder hx hy fun hx' => ih hx' hy fun z hz => (ht z hz).2]
  | letIn y v b ihv ihb =>
    simp only [boundNames, List.mem_cons, List.mem_append, not_or] at ht
    have hy : ∀ z ∈ a.freeVars, z ∉ y :: Γ := fun z hz => by simp [(ht z hz).1, hΓ z hz]
    rw [subst, namelessIn, namelessIn, Nameless.bind_letIn, Nameless.bind_letIn,
      ihv hx hΓ fun z hz => (ht z hz).2.1,
      hbinder hx hy fun hx' => ihb hx' hy fun z hz => (ht z hz).2.2]
  | head b ih | tail b ih | fix b ih | mkRef b ih | deref b ih =>
    have hb := ih hx hΓ ht
    simp only [Nameless.bind] at hb
    simp only [subst, namelessIn, Nameless.bind, Nameless.replace, hb]
  | app b c ih ih' | cons b c ih ih' | add b c ih ih' | sub b c ih ih' | assign b c ih ih' =>
    simp only [boundNames, List.mem_append, not_or] at ht
    have hb := ih hx hΓ fun z hz => (ht z hz).1
    have hc := ih' hx hΓ fun z hz => (ht z hz).2
    simp only [Nameless.bind] at hb hc
    simp only [subst, namelessIn, Nameless.bind, Nameless.replace, hb, hc]
  | ifZero b c d ih ih' ih'' | ifEmpty b c d ih ih' ih'' =>
    simp only [boundNames, List.mem_append, not_or] at ht
    have hb := ih hx hΓ fun z hz => (ht z hz).1.1
    have hc := ih' hx hΓ fun z hz => (ht z hz).1.2
    have hd := ih'' hx hΓ fun z hz => (ht z hz).2
    simp only [Nameless.bind] at hb hc hd
    simp only [subst, namelessIn, Nameless.bind, Nameless.replace, hb, hc, hd]

/-- **Substitution agrees with nameless substitution** when no binder of the term is
    free in the replacement. -/
theorem nameless_subst {x : String} {a t : Term} (h : ∀ y ∈ a.freeVars, y ∉ t.boundNames) :
    (subst x a t).nameless = (t.namelessIn [x]).instantiate a.nameless := by
  have hsubst := namelessIn_subst (σ := fun x => .var (.free x)) (Γ := []) (x := x)
    (by simp) (by simp) h
  have hinst := instantiate_namelessIn (σ := fun x => .var (.free x)) (fun _ => trivial)
    a.closed_nameless x t []
  rw [Nameless.bind_free, Nameless.bind_free] at hsubst
  rw [Nameless.bind_free] at hinst
  exact hsubst.trans hinst.symm

end Term

end MiniML
