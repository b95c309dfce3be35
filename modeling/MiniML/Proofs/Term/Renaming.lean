/-
  MiniML/Proofs/Term/Renaming.lean
  ================================
  **Names of binders do not matter** — alpha equality is equality of nameless forms,
  and alpha conversion keeps the nameless form.

  Conversion gives every binder the next name of a supply.  What keeps the occurrences
  at their binders is that the names which the variables in scope have received are
  not issued again (`Follows`); the supply issues a name twice only after `2 ^ 64`
  names, so the term may have that many binders.
-/
import MiniML.Proofs.Term.Alpha
import MiniML.Proofs.Term.Nameless

namespace MiniML

/-! ### Alpha equality -/

/-- The scope holds the listed binders, the outermost at depth 0. -/
def Term.Scope.Lists (l : Scope) (Γ : List String) : Prop :=
  ∀ x, l[x]? = match resolve Γ x with
    | .bound i => some (Γ.length - (i + 1))
    | .free _ => none

theorem Term.Scope.lists_empty : Lists ∅ [] := fun x => by simp [resolve]

theorem Term.Scope.Lists.insert {l : Scope} {Γ : List String} (h : l.Lists Γ) (x : String) :
    Lists (l.insert x Γ.length) (x :: Γ) := by
  intro y
  rw [Std.ExtTreeMap.getElem?_insert, resolve]
  by_cases hyx : y = x
  · simp [hyx]
  · rw [if_neg hyx, h y]
    simp only [Std.LawfulEqCmp.compare_eq_iff_eq, Ne.symm hyx, if_false]
    cases resolve Γ y with
    | bound i => simp
    | free z => rfl

theorem Term.sameVar_iff {l r : Scope} {Γ Δ : List String} (hl : l.Lists Γ) (hr : r.Lists Δ)
    (hlen : Γ.length = Δ.length) (x y : String) :
    sameVar l r x y = true ↔ resolve Γ x = resolve Δ y := by
  rw [sameVar, hl x, hr y]
  obtain ⟨i, hi, hΓ, -⟩ | ⟨-, hΓ⟩ := resolve_cases Γ x <;>
    obtain ⟨j, hj, hΔ, -⟩ | ⟨-, hΔ⟩ := resolve_cases Δ y
  · simp only [hΓ, hΔ, beq_iff_eq, Nameless.Var.bound.injEq]
    omega
  · simp [hΓ, hΔ]
  · simp [hΓ, hΔ]
  · simp [hΓ, hΔ]

theorem Term.alphaEqIn_iff {l r : Scope} {Γ Δ : List String} (hl : l.Lists Γ) (hr : r.Lists Δ)
    (hlen : Γ.length = Δ.length) (a b : Term) :
    alphaEqIn l r Γ.length a b = true ↔ a.namelessIn Γ = b.namelessIn Δ := by
  induction a generalizing l r Γ Δ b with
  | var x =>
    cases b with
    | var y => simp only [alphaEqIn, namelessIn, Nameless.var.injEq, sameVar_iff hl hr hlen]
    | _ => simp [alphaEqIn, namelessIn]
  | abs x a ih =>
    cases b with
    | abs y b =>
      simp only [alphaEqIn, namelessIn, Nameless.abs.injEq]
      exact ih (hl.insert x) (hlen ▸ hr.insert y) (by simp [hlen]) b
    | _ => simp [alphaEqIn, namelessIn]
  | letIn x v a ihv ih =>
    cases b with
    | letIn y w b =>
      simp only [alphaEqIn, namelessIn, Nameless.letIn.injEq, Bool.and_eq_true]
      exact and_congr (ihv hl hr hlen w) (ih (hl.insert x) (hlen ▸ hr.insert y) (by simp [hlen]) b)
    | _ => simp [alphaEqIn, namelessIn]
  | int | nil | unit | region => cases b <;> simp [alphaEqIn, namelessIn]
  | head a ih | tail a ih | fix a ih | mkRef a ih | deref a ih =>
    cases b <;> simp [alphaEqIn, namelessIn, ih hl hr hlen]
  | app a a' ih ih' | cons a a' ih ih' | add a a' ih ih' | sub a a' ih ih' | assign a a' ih ih' =>
    cases b <;> simp [alphaEqIn, namelessIn, ih hl hr hlen, ih' hl hr hlen]
  | ifZero a a' a'' ih ih' ih'' | ifEmpty a a' a'' ih ih' ih'' =>
    cases b <;> simp [alphaEqIn, namelessIn, ih hl hr hlen, ih' hl hr hlen, ih'' hl hr hlen,
      and_assoc]

/-- **Terms are equal up to the names of binders exactly if their nameless forms are
    equal.** -/
theorem Term.alphaEq_iff {a b : Term} : a.alphaEq b = true ↔ a.nameless = b.nameless :=
  alphaEqIn_iff Scope.lists_empty Scope.lists_empty rfl a b

/-! ### Alpha conversion -/

namespace Term

/-- The name that a variable has after the renaming points to where the variable
    pointed to, and the supply does not issue it. -/
def Follows (ρ : Renaming) (s : NameSupply) (limit : Int) (Γ Δ : List String) (x : String) : Prop :=
  resolve Δ ((ρ[x]?).getD x) = resolve Γ x ∧ s.Spares limit ((ρ[x]?).getD x)

theorem Follows.later {ρ : Renaming} {s s' : NameSupply} {limit : Int} {Γ Δ : List String}
    {x : String} (h : Follows ρ s limit Γ Δ x) (hs : s.Before s') : Follows ρ s' limit Γ Δ x :=
  ⟨h.1, h.2.later hs⟩

theorem getD_insert_of_ne {ρ : Renaming} {x y z : String} (h : y ≠ x) :
    ((ρ.insert x z)[y]?).getD y = (ρ[y]?).getD y := by
  rw [Std.ExtTreeMap.getElem?_insert]
  simp [Ne.symm h]

theorem Follows.insert {ρ : Renaming} {s : NameSupply} {limit : Int} {Γ Δ : List String}
    {x y : String} (hl : s.fresh.2.count ≤ limit) (hlimit : limit ≤ s.count + 2 ^ 64)
    (h : y ≠ x → Follows ρ s limit Γ Δ y) :
    Follows (ρ.insert x s.fresh.1) s.fresh.2 limit (x :: Γ) (s.fresh.1 :: Δ) y := by
  by_cases hyx : y = x
  · subst hyx
    rw [Follows, Std.ExtTreeMap.getElem?_insert_self, Option.getD_some, resolve, resolve,
      if_pos rfl, if_pos rfl]
    exact ⟨rfl, NameSupply.spares_fresh_of_le hlimit⟩
  · obtain ⟨hpoint, hspare⟩ := h hyx
    rw [Follows, getD_insert_of_ne hyx]
    exact ⟨resolve_cons_congr hpoint (hspare.ne_fresh hl) hyx,
      hspare.later (NameSupply.before_fresh s)⟩

/-- **Alpha conversion keeps the nameless form.** -/
theorem namelessIn_alphaConvert {t : Term} {ρ : Renaming} {s : NameSupply} {limit : Int}
    {Γ Δ : List String} (hl : s.count + t.binders ≤ limit) (hlimit : limit ≤ s.count + 2 ^ 64)
    (h : ∀ x ∈ t.freeVars, Follows ρ s limit Γ Δ x) :
    (t.alphaConvert ρ s).1.namelessIn Δ = t.namelessIn Γ := by
  -- `limit` stays fixed while the supply advances, so that what it spares once it spares
  -- in every part that is converted later
  induction t generalizing ρ s Γ Δ with
  | var x =>
    rw [alphaConvert, namelessIn, namelessIn, (h x (mem_freeVars_var.mpr rfl)).1]
  | int | nil | unit | region => rfl
  | abs x b ih =>
    rw [binders] at hl
    have hfresh : s.fresh.2.count = s.count + 1 := rfl
    refine congrArg Nameless.abs (ih (by omega) (by omega) fun y hy => ?_)
    exact Follows.insert (by omega) hlimit fun hyx => h y (mem_freeVars_abs.mpr ⟨hyx, hy⟩)
  | letIn x v b ihv ihb =>
    rw [binders] at hl
    have hfresh : s.fresh.2.count = s.count + 1 := rfl
    have hcount := v.count_alphaConvert ρ s.fresh.2
    refine congrArg₂ Nameless.letIn (ihv (by omega) (by omega) fun y hy => ?_)
      (ihb (by omega) (by omega) fun y hy => ?_)
    · exact (h y (mem_freeVars_letIn.mpr (.inl hy))).later (NameSupply.before_fresh s)
    · refine (Follows.insert (by omega) hlimit fun hyx => ?_).later
        (v.before_alphaConvert ρ s.fresh.2)
      exact h y (mem_freeVars_letIn.mpr (.inr ⟨hyx, hy⟩))
  | head b ih | tail b ih | fix b ih | mkRef b ih | deref b ih =>
    simp only [alphaConvert, namelessIn, ih hl hlimit h]
  | app a b ih ih' | cons a b ih ih' | add a b ih ih' | sub a b ih ih' | assign a b ih ih' =>
    rw [binders] at hl
    have hcount := a.count_alphaConvert ρ s
    have ha := ih (by omega) hlimit fun y hy => h y (by simp [freeVars, hy])
    have hb := ih' (ρ := ρ) (s := (a.alphaConvert ρ s).2) (by omega) (by omega) fun y hy =>
      (h y (by simp [freeVars, hy])).later (a.before_alphaConvert ρ s)
    simp only [alphaConvert, namelessIn, ha, hb]
  | ifZero a b c ih ih' ih'' | ifEmpty a b c ih ih' ih'' =>
    rw [binders] at hl
    have hcount := a.count_alphaConvert ρ s
    have hcount' := b.count_alphaConvert ρ (a.alphaConvert ρ s).2
    have hlater := (a.before_alphaConvert ρ s).trans
      (b.before_alphaConvert ρ (a.alphaConvert ρ s).2)
    have ha := ih (by omega) hlimit fun y hy => h y (by simp [freeVars, hy])
    have hb := ih' (ρ := ρ) (s := (a.alphaConvert ρ s).2) (by omega) (by omega) fun y hy =>
      (h y (by simp [freeVars, hy])).later (a.before_alphaConvert ρ s)
    have hc := ih'' (ρ := ρ) (s := (b.alphaConvert ρ (a.alphaConvert ρ s).2).2) (by omega)
      (by omega) fun y hy => (h y (by simp [freeVars, hy])).later hlater
    simp only [alphaConvert, namelessIn, ha, hb, hc]

theorem nameless_alphaConvert {t : Term} {s : NameSupply} (ht : t.binders ≤ 2 ^ 64)
    (h : ∀ x ∈ t.freeVars, s.Spares (s.count + t.binders) x) :
    (t.alphaConvert ∅ s).1.nameless = t.nameless := by
  refine namelessIn_alphaConvert (Int.le_refl _) (by omega) fun x hx => ?_
  have hget : ((∅ : Renaming)[x]?).getD x = x := by simp
  rw [Follows, hget]
  exact ⟨rfl, h x hx⟩

theorem exists_of_mem_freeVars_alphaConvert {t : Term} {ρ : Renaming} {s : NameSupply} {x : String}
    (h : x ∈ (t.alphaConvert ρ s).1.freeVars) : ∃ y ∈ t.freeVars, x = (ρ[y]?).getD y := by
  induction t generalizing ρ s with
  | var y => exact ⟨y, mem_freeVars_var.mpr rfl, mem_freeVars_var.mp h⟩
  | int | nil | unit | region => exact absurd h (by simp [alphaConvert, freeVars])
  | abs z b ih =>
    obtain ⟨hne, hx⟩ := mem_freeVars_abs.mp h
    obtain ⟨y, hy, rfl⟩ := ih hx
    -- had `y` been bound here, it would be renamed to the binder
    have hyz : y ≠ z := by
      rintro rfl
      simp at hne
    exact ⟨y, mem_freeVars_abs.mpr ⟨hyz, hy⟩, getD_insert_of_ne hyz⟩
  | letIn z v b ihv ihb =>
    obtain hx | ⟨hne, hx⟩ := mem_freeVars_letIn.mp h
    · obtain ⟨y, hy, rfl⟩ := ihv hx
      exact ⟨y, mem_freeVars_letIn.mpr (.inl hy), rfl⟩
    · obtain ⟨y, hy, rfl⟩ := ihb hx
      have hyz : y ≠ z := by
        rintro rfl
        simp at hne
      exact ⟨y, mem_freeVars_letIn.mpr (.inr ⟨hyz, hy⟩), getD_insert_of_ne hyz⟩
  | head b ih | tail b ih | fix b ih | mkRef b ih | deref b ih => exact ih h
  | app a b ih ih' | cons a b ih ih' | add a b ih ih' | sub a b ih ih' | assign a b ih ih' =>
    simp only [alphaConvert, freeVars, Std.ExtTreeSet.mem_union_iff] at h ⊢
    obtain hx | hx := h
    · exact (ih hx).imp fun y hy => ⟨.inl hy.1, hy.2⟩
    · exact (ih' hx).imp fun y hy => ⟨.inr hy.1, hy.2⟩
  | ifZero a b c ih ih' ih'' | ifEmpty a b c ih ih' ih'' =>
    simp only [alphaConvert, freeVars, Std.ExtTreeSet.mem_union_iff] at h ⊢
    obtain (hx | hx) | hx := h
    · exact (ih hx).imp fun y hy => ⟨.inl (.inl hy.1), hy.2⟩
    · exact (ih' hx).imp fun y hy => ⟨.inl (.inr hy.1), hy.2⟩
    · exact (ih'' hx).imp fun y hy => ⟨.inr hy.1, hy.2⟩

theorem issued_of_mem_boundNames_alphaConvert {t : Term} {ρ : Renaming} {s : NameSupply}
    {x : String} (h : x ∈ (t.alphaConvert ρ s).1.boundNames) :
    s.Issued (t.alphaConvert ρ s).2 x := by
  induction t generalizing ρ s with
  | var | int | nil | unit | region => exact absurd h (by simp [alphaConvert, boundNames])
  | abs z b ih =>
    obtain rfl | hx := List.mem_cons.mp h
    · exact (NameSupply.issued_fresh s).later (b.before_alphaConvert _ s.fresh.2)
    · exact (ih hx).earlier (NameSupply.before_fresh s)
  | letIn z v b ihv ihb =>
    have hv := v.before_alphaConvert ρ s.fresh.2
    have hb := b.before_alphaConvert (ρ.insert z s.fresh.1) (v.alphaConvert ρ s.fresh.2).2
    simp only [alphaConvert, boundNames, List.mem_cons, List.mem_append] at h
    obtain rfl | hx | hx := h
    · exact (NameSupply.issued_fresh s).later (hv.trans hb)
    · exact ((ihv hx).earlier (NameSupply.before_fresh s)).later hb
    · exact (ihb hx).earlier ((NameSupply.before_fresh s).trans hv)
  | head b ih | tail b ih | fix b ih | mkRef b ih | deref b ih => exact ih h
  | app a b ih ih' | cons a b ih ih' | add a b ih ih' | sub a b ih ih' | assign a b ih ih' =>
    simp only [alphaConvert, boundNames, List.mem_append] at h ⊢
    obtain hx | hx := h
    · exact (ih hx).later (b.before_alphaConvert ρ _)
    · exact (ih' hx).earlier (a.before_alphaConvert ρ s)
  | ifZero a b c ih ih' ih'' | ifEmpty a b c ih ih' ih'' =>
    have ha := a.before_alphaConvert ρ s
    have hb := b.before_alphaConvert ρ (a.alphaConvert ρ s).2
    have hc := c.before_alphaConvert ρ (b.alphaConvert ρ (a.alphaConvert ρ s).2).2
    simp only [alphaConvert, boundNames, List.mem_append] at h ⊢
    obtain (hx | hx) | hx := h
    · exact (ih hx).later (hb.trans hc)
    · exact ((ih' hx).earlier ha).later hc
    · exact (ih'' hx).earlier (ha.trans hb)

/-- What a free variable is renamed to is free in the result if it is not issued. -/
theorem mem_freeVars_alphaConvert_of_spares {t : Term} {ρ : Renaming} {s : NameSupply}
    {limit : Int} {x : String} (hl : s.count + t.binders ≤ limit) (hx : x ∈ t.freeVars)
    (hs : s.Spares limit ((ρ[x]?).getD x)) :
    (ρ[x]?).getD x ∈ (t.alphaConvert ρ s).1.freeVars := by
  induction t generalizing ρ s with
  | var y =>
    obtain rfl := mem_freeVars_var.mp hx
    exact mem_freeVars_var.mpr rfl
  | int | nil | unit | region => exact absurd hx (by simp [freeVars])
  | abs y b ih =>
    rw [binders] at hl
    have hfresh : s.fresh.2.count = s.count + 1 := rfl
    obtain ⟨hxy, hx⟩ := mem_freeVars_abs.mp hx
    refine mem_freeVars_abs.mpr ⟨hs.ne_fresh (by omega), ?_⟩
    rw [← getD_insert_of_ne hxy] at hs ⊢
    exact ih (by omega) hx (hs.later (NameSupply.before_fresh s))
  -- a name that is spared now is spared later on, when the body is converted
  | letIn y v b ihv ihb =>
    rw [binders] at hl
    have hfresh : s.fresh.2.count = s.count + 1 := rfl
    have hcount := v.count_alphaConvert ρ s.fresh.2
    have hlater := hs.later (NameSupply.before_fresh s)
    refine mem_freeVars_letIn.mpr ?_
    obtain hx | ⟨hxy, hx⟩ := mem_freeVars_letIn.mp hx
    · exact .inl (ihv (by omega) hx hlater)
    · refine .inr ⟨hs.ne_fresh (by omega), ?_⟩
      rw [← getD_insert_of_ne hxy] at hlater ⊢
      exact ihb (by omega) hx (hlater.later (v.before_alphaConvert ρ s.fresh.2))
  | head b ih | tail b ih | fix b ih | mkRef b ih | deref b ih => exact ih hl hx hs
  | app a b ih ih' | cons a b ih ih' | add a b ih ih' | sub a b ih ih' | assign a b ih ih' =>
    rw [binders] at hl
    have hcount := a.count_alphaConvert ρ s
    have hlater := hs.later (a.before_alphaConvert ρ s)
    simp only [alphaConvert, freeVars, Std.ExtTreeSet.mem_union_iff] at hx ⊢
    exact hx.imp (ih (by omega) · hs) (ih' (by omega) · hlater)
  | ifZero a b c ih ih' ih'' | ifEmpty a b c ih ih' ih'' =>
    rw [binders] at hl
    have hcount := a.count_alphaConvert ρ s
    have hcount' := b.count_alphaConvert ρ (a.alphaConvert ρ s).2
    have hlater := hs.later (a.before_alphaConvert ρ s)
    have hlater' := hlater.later (b.before_alphaConvert ρ (a.alphaConvert ρ s).2)
    simp only [alphaConvert, freeVars, Std.ExtTreeSet.mem_union_iff] at hx ⊢
    exact hx.imp (fun hx => hx.imp (ih (by omega) · hs) (ih' (by omega) · hlater))
      (ih'' (by omega) · hlater')

theorem mem_freeVars_alphaConvert {t : Term} {ρ : Renaming} {s : NameSupply} {x : String}
    (hx : x ∈ t.freeVars) (hs : ∀ n : Int64, (ρ[x]?).getD x ≠ s.stem ++ decimal n) :
    (ρ[x]?).getD x ∈ (t.alphaConvert ρ s).1.freeVars :=
  mem_freeVars_alphaConvert_of_spares (Int.le_refl _) hx fun n _ _ => hs (.ofInt n)

theorem isValue_alphaConvert (t : Term) (ρ : Renaming) (s : NameSupply) :
    (t.alphaConvert ρ s).1.isValue = t.isValue := by
  induction t generalizing ρ s with
  | cons a b iha ihb => simp only [alphaConvert, isValue, iha, ihb]
  | fix f ih => simp only [alphaConvert, isValue, ih]
  | _ => rfl

/-- Converting again from the same supply changes nothing: every binder receives the
    name that it has. -/
theorem alphaConvert_alphaConvert (t : Term) {ρ ρ' : Renaming} {s : NameSupply}
    (hρ : ∀ x : String, (ρ'[x]?).getD x = x) :
    (t.alphaConvert ρ s).1.alphaConvert ρ' s = t.alphaConvert ρ s := by
  have hinsert : ∀ {ρ' : Renaming} {y : String}, (∀ x : String, (ρ'[x]?).getD x = x) →
      ∀ x : String, ((ρ'.insert y y)[x]?).getD x = x := by
    intro ρ' y hρ x
    by_cases hxy : x = y
    · rw [hxy, Std.ExtTreeMap.getElem?_insert_self, Option.getD_some]
    · rw [getD_insert_of_ne hxy, hρ x]
  induction t generalizing ρ ρ' s with
  | var x => simp only [alphaConvert, hρ]
  | int | nil | unit | region => rfl
  | abs x b ih => simp only [alphaConvert, ih (hinsert hρ)]
  | letIn x v b ihv ihb => simp only [alphaConvert, ihv hρ, ihb (hinsert hρ)]
  | head b ih | tail b ih | fix b ih | mkRef b ih | deref b ih => simp only [alphaConvert, ih hρ]
  | app a b ih ih' | cons a b ih ih' | add a b ih ih' | sub a b ih ih' | assign a b ih ih' =>
    simp only [alphaConvert, ih hρ, ih' hρ]
  | ifZero a b c ih ih' ih'' | ifEmpty a b c ih ih' ih'' =>
    simp only [alphaConvert, ih hρ, ih' hρ, ih'' hρ]

end Term

end MiniML
