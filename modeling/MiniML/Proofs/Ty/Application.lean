/-
  MiniML/Proofs/Ty/Application.lean
  =================================
  **How a substitution is applied** — the recursion follows bindings, not only the type,
  and ends because of a guard: a variable is not resolved while it is being resolved.

  The calls of the recursion are a relation (`Call.Makes`).  Along it the number of
  names that may still be resolved and the size of the type decrease lexicographically,
  and `guarded` is the function that this recursion computes; `apply`, which sets a
  binding aside instead of keeping a list, is the same function (`guarded_eq`).

  What it computes can be said without the guard in two cases.  On an acyclic
  substitution of monotypes it is what repeated simultaneous replacement ends with
  (`Regular.settles_iff`), and where no variable of the range is bound, one replacement
  does it in whatever type (`Flat.apply_eq_substAll`).
-/
import Mathlib.Data.Finset.Lattice.Fold
import MiniML.Proofs.Ty.Resolution

namespace MiniML.Subst

/-! ### Calls -/

/-- A call of the recursion: the bindings that no quantifier above hides, the variables
    that are being resolved, and the type to resolve. -/
structure Call where
  subst : Subst
  path : List String
  type : Ty

/-- The calls that a call makes.  A bound variable leads on to its binding unless it is
    being resolved; a quantifier hides its own binding. -/
inductive Call.Makes : Call → Call → Prop where
  | bound {s : Subst} {path x t} (hx : s[x]? = some t) (hpath : x ∉ path) :
      Makes ⟨s, path, .var x⟩ ⟨s, x :: path, t⟩
  | dom {s path a b} : Makes ⟨s, path, .arrow a b⟩ ⟨s, path, a⟩
  | cod {s path a b} : Makes ⟨s, path, .arrow a b⟩ ⟨s, path, b⟩
  | elem {s path e} : Makes ⟨s, path, .list e⟩ ⟨s, path, e⟩
  | content {s path c} : Makes ⟨s, path, .ref c⟩ ⟨s, path, c⟩
  | body {s : Subst} {path v b} : Makes ⟨s, path, .all v b⟩ ⟨s.erase v, path, b⟩

/-- The bound names that are not being resolved. -/
def Call.pending (c : Call) : Finset String := c.subst.keys.toFinset.filter (· ∉ c.path)

/-- The number of names that may still be resolved, then the size of the type. -/
def Call.measure (c : Call) : Nat × Nat := (c.pending.card, c.type.nodes)

theorem mem_keys_iff {s : Subst} {x : String} : x ∈ s.keys ↔ ∃ t, s[x]? = some t := by
  rw [Std.ExtTreeMap.mem_keys, Std.ExtTreeMap.mem_iff_isSome_getElem?, Option.isSome_iff_exists]

theorem Call.mem_pending {c : Call} {x : String} :
    x ∈ c.pending ↔ (∃ t, c.subst[x]? = some t) ∧ x ∉ c.path := by
  rw [pending, Finset.mem_filter, List.mem_toFinset, mem_keys_iff]

/-- Resolving a variable uses it up, every other call goes to a smaller type. -/
theorem Call.Makes.measure_lt {c d : Call} (h : c.Makes d) :
    Prod.Lex (· < ·) (· < ·) d.measure c.measure := by
  cases h with
  | @bound s path x t hx hpath =>
    refine .left _ _ (Finset.card_lt_card ((Finset.ssubset_iff_of_subset ?_).mpr ⟨x, ?_, ?_⟩))
    · intro y hy
      rw [mem_pending] at hy ⊢
      exact ⟨hy.1, fun hmem => hy.2 (List.mem_cons_of_mem x hmem)⟩
    · exact mem_pending.mpr ⟨⟨t, hx⟩, hpath⟩
    · exact fun hmem => (mem_pending.mp hmem).2 List.mem_cons_self
  | dom | cod | elem | content =>
    refine .right _ ?_
    simp only [Ty.nodes]
    omega
  | @body s path v b =>
    -- the quantifier may hide a binding, so the names may become fewer as well
    have hsub : (Call.mk (s.erase v) path b).pending ⊆ (Call.mk s path (.all v b)).pending := by
      intro y hy
      rw [mem_pending] at hy ⊢
      exact ⟨hy.1.imp fun _ => getElem?_erase_some, hy.2⟩
    rcases Nat.lt_or_eq_of_le (Finset.card_le_card hsub) with hlt | heq
    · exact .left _ _ hlt
    · rw [measure, measure, heq]
      exact .right _ (Nat.lt_succ_self _)

/-- **The recursion ends** on every substitution, cyclic or not. -/
theorem Call.wellFounded_makes : WellFounded fun d c : Call => c.Makes d :=
  Subrelation.wf (fun {_ _} h => h.measure_lt)
    (InvImage.wf Call.measure (WellFounded.prod_lex Nat.lt_wfRel.wf Nat.lt_wfRel.wf))

/-- What a call returns, given what the calls return that it makes. -/
def Call.body : (c : Call) → ((d : Call) → c.Makes d → Ty) → Ty
  | ⟨s, path, .var x⟩, returns =>
    match hx : s[x]? with
    | none => .var x
    | some t => if hpath : x ∈ path then .var x else returns ⟨s, x :: path, t⟩ (.bound hx hpath)
  | ⟨s, path, .arrow a b⟩, returns => .arrow (returns ⟨s, path, a⟩ .dom) (returns ⟨s, path, b⟩ .cod)
  | ⟨_, _, .int⟩, _ => .int
  | ⟨s, path, .list e⟩, returns => .list (returns ⟨s, path, e⟩ .elem)
  | ⟨_, _, .unit⟩, _ => .unit
  | ⟨s, path, .ref c⟩, returns => .ref (returns ⟨s, path, c⟩ .content)
  | ⟨s, path, .all v b⟩, returns => .all v (returns ⟨s.erase v, path, b⟩ .body)

/-- What a call returns. -/
def Call.guarded : Call → Ty := wellFounded_makes.fix body

theorem without_cons (s : Subst) (x : String) (path : List String) :
    s.without (x :: path) = (s.without path).erase x := by
  refine Std.ExtTreeMap.ext_getElem? fun y => ?_
  rw [getElem?_without]
  by_cases hyx : y = x
  · simp [hyx]
  · simp [hyx, getElem?_erase_of_ne hyx, getElem?_without]

theorem without_erase (s : Subst) (x : String) (path : List String) :
    without (s.erase x) path = (s.without path).erase x := by
  refine Std.ExtTreeMap.ext_getElem? fun y => ?_
  rw [getElem?_without]
  by_cases hyx : y = x
  · simp [hyx]
  · rw [getElem?_erase_of_ne hyx, getElem?_erase_of_ne hyx, getElem?_without]

/-- **The two guards do the same**: a list of the variables that are being resolved, and
    their bindings set aside. -/
theorem Call.guarded_eq (c : Call) : c.guarded = (c.subst.without c.path).apply c.type := by
  induction c using wellFounded_makes.induction with
  | _ c ih =>
    rw [guarded, WellFounded.fix_eq]
    change body c (fun d _ => guarded d) = _
    obtain ⟨s, path, t⟩ := c
    cases t with
    | var x =>
      rw [body]
      split
      · rename_i hx
        exact (resolve_of_unbound (by rw [getElem?_without, hx, ite_self])).symm
      · rename_i t hx
        split
        · rename_i hpath
          exact (resolve_of_unbound (by rw [getElem?_without, if_pos hpath])).symm
        · rename_i hpath
          rw [ih _ (.bound hx hpath), without_cons, apply_var_of_bound]
          rw [getElem?_without, if_neg hpath, hx]
    | arrow a b => rw [body, apply, ih _ .dom, ih _ .cod]
    | int | unit => rw [body, apply]
    | list e => rw [body, apply, ih _ .elem]
    | ref c => rw [body, apply, ih _ .content]
    | all v b => rw [body, apply, ih _ .body, without_erase]

/-! ### Repeated replacement -/

/-- What a type comes to when all bound variables are replaced at once, again and again
    until nothing changes. -/
inductive Settles (s : Subst) : Ty → Ty → Prop where
  | done {t : Ty} (h : t.substAll s = t) : Settles s t t
  | again {t u : Ty} (hne : t.substAll s ≠ t) (h : Settles s (t.substAll s) u) : Settles s t u

theorem Settles.unique {s : Subst} {t u v : Ty} (hu : s.Settles t u) (hv : s.Settles t v) :
    u = v := by
  induction hu with
  | done h =>
    cases hv with
    | done => rfl
    | again hne _ => exact absurd h hne
  | again hne _ ih =>
    cases hv with
    | done h => exact absurd h hne
    | again _ hv => exact ih hv

/-- What simultaneous replacement puts in the place of a variable. -/
def binding (s : Subst) (x : String) : Ty := (s[x]?).getD (.var x)

theorem binding_of_bound {s : Subst} {x : String} {t : Ty} (h : s[x]? = some t) :
    s.binding x = t := by
  rw [binding, h, Option.getD_some]

theorem binding_of_unbound {s : Subst} {x : String} (h : s[x]? = none) :
    s.binding x = .var x := by
  rw [binding, h, Option.getD_none]

section Rounds

variable {s : Subst} {t : Ty}

theorem substAll_eq_bind_binding (s : Subst) (ht : t.Mono) : t.substAll s = t.bind s.binding :=
  Ty.substAll_eq_bind ht s

theorem Regular.mono_substAll (hs : s.Regular) (ht : t.Mono) : (t.substAll s).Mono := by
  rw [substAll_eq_bind_binding s ht]
  refine ht.bind fun x => ?_
  cases hx : s[x]? with
  | none =>
    rw [binding_of_unbound hx]
    exact trivial
  | some u =>
    rw [binding_of_bound hx]
    exact hs.mono hx

/-- A round is part of the resolution. -/
theorem Regular.apply_substAll (hs : s.Regular) (ht : t.Mono) :
    s.apply (t.substAll s) = s.apply t := by
  rw [apply_eq_bind s (hs.mono_substAll ht), apply_eq_bind s ht, substAll_eq_bind_binding s ht,
    Ty.bind_bind ht]
  refine Ty.bind_congr fun x _ => ?_
  cases hx : s[x]? with
  | none => rw [binding_of_unbound hx, Ty.bind]
  | some u => rw [binding_of_bound hx, hs.resolve_of_bound hx]

/-- On an acyclic substitution a round changes every type with a bound variable. -/
theorem Regular.substAll_eq_self_iff (hs : s.Regular) (ht : t.Mono) :
    t.substAll s = t ↔ ∀ x ∈ t.freeVars, s[x]? = none := by
  rw [substAll_eq_bind_binding s ht]
  constructor
  · intro h x hx
    have hself : s.binding x = .var x := Ty.eq_of_bind_eq (h.trans (Ty.bind_var t).symm) x hx
    cases hsx : s[x]? with
    | none => rfl
    | some u =>
      obtain rfl : u = .var x := (binding_of_bound hsx).symm.trans hself
      exact absurd (.single ⟨_, hsx, by simp⟩) (hs.acyclic x)
  · intro h
    exact Ty.bind_eq_self fun x hx => binding_of_unbound (h x hx)

/-- Without bound variables there is nothing to repeat. -/
theorem Regular.settles_of_unbound (hs : s.Regular) (ht : t.Mono)
    (hfree : ∀ x ∈ t.freeVars, s[x]? = none) : s.Settles t (s.apply t) := by
  rw [apply_eq_self hfree]
  exact .done ((hs.substAll_eq_self_iff ht).mpr hfree)

/-- A round lowers the rank of the bound variables, so their rank bounds the rounds. -/
theorem Regular.settles_of_rank (hs : s.Regular) {r : String → Nat} (hr : s.IsRank r) (n : Nat)
    (ht : t.Mono) (hn : ∀ x ∈ t.freeVars, s[x]? ≠ none → r x < n) : s.Settles t (s.apply t) := by
  induction n generalizing t with
  | zero =>
    exact hs.settles_of_unbound ht fun x hx =>
      Classical.byContradiction fun hbound => Nat.not_lt_zero _ (hn x hx hbound)
  | succ n ih =>
    by_cases hfree : ∀ x ∈ t.freeVars, s[x]? = none
    · exact hs.settles_of_unbound ht hfree
    · refine .again (fun h => hfree ((hs.substAll_eq_self_iff ht).mp h)) ?_
      rw [← hs.apply_substAll ht]
      refine ih (hs.mono_substAll ht) fun y hy hbound => ?_
      -- a bound variable after the round comes out of a binding
      rw [substAll_eq_bind_binding s ht] at hy
      obtain ⟨x, hx, hy⟩ := (Ty.mem_freeVars_bind ht).mp hy
      cases hsx : s[x]? with
      | none =>
        rw [binding_of_unbound hsx, Ty.mem_freeVars_var] at hy
        exact absurd (hy ▸ hsx) hbound
      | some u =>
        rw [binding_of_bound hsx] at hy
        have hx' := hn x hx (by simp [hsx])
        have hy' := hr ⟨u, hsx, hy⟩
        omega

/-- **Resolving is replacing until nothing changes.** -/
theorem Regular.settles_iff (hs : s.Regular) (ht : t.Mono) {u : Ty} :
    s.Settles t u ↔ u = s.apply t := by
  obtain ⟨r, hr⟩ := hs.acyclic.exists_rank
  have hsettles : s.Settles t (s.apply t) :=
    hs.settles_of_rank hr (t.freeVars.toFinset.sup r + 1) ht fun x hx _ =>
      Nat.lt_succ_of_le (Finset.le_sup (List.mem_toFinset.mpr hx))
  exact ⟨fun h => h.unique hsettles, fun h => h ▸ hsettles⟩

end Rounds

/-! ### Flat substitutions -/

/-- No variable in the range is bound. -/
def Flat (s : Subst) : Prop := ∀ ⦃x y : String⦄, s.Refers x y → s[y]? = none

theorem Flat.erase {s : Subst} (hs : s.Flat) (v : String) : Flat (s.erase v) := by
  rintro x y ⟨t, ht, hy⟩
  rw [Std.ExtTreeMap.getElem?_erase]
  split
  · rfl
  · exact hs ⟨t, getElem?_erase_some ht, hy⟩

/-- **Resolving is replacing once** where no variable of the range is bound. -/
theorem Flat.apply_eq_substAll {s : Subst} (hs : s.Flat) (t : Ty) : s.apply t = t.substAll s := by
  induction t generalizing s with
  | var x =>
    rw [Ty.substAll]
    cases hx : s[x]? with
    | none => exact resolve_of_unbound hx
    | some t =>
      rw [apply_var_of_bound hx]
      refine apply_eq_self fun y hy => ?_
      rw [Std.ExtTreeMap.getElem?_erase]
      split
      · rfl
      · exact hs ⟨t, hx, hy⟩
  | arrow a b iha ihb => rw [apply, Ty.substAll, iha hs, ihb hs]
  | int | unit => rw [apply, Ty.substAll]
  | list e ih => rw [apply, Ty.substAll, ih hs]
  | ref c ih => rw [apply, Ty.substAll, ih hs]
  | all v b ih => rw [apply, Ty.substAll, ih (hs.erase v)]

/-- **Application ends and resolves completely.**  Every call that application makes has
    fewer names that may still be resolved, or as many and a smaller type, so the
    recursion ends on every substitution and every type, and it computes `apply`.  On an
    acyclic substitution of monotypes, a resolved monotype has no bound variable, is left
    as it is by a second application, and is what repeated replacement ends with.  Where
    no variable of the range is bound, a single replacement resolves every type. -/
theorem apply_ends_and_resolves :
    (∀ c d : Call, c.Makes d → Prod.Lex (· < ·) (· < ·) d.measure c.measure) ∧
    (WellFounded fun d c : Call => c.Makes d) ∧
    (∀ (s : Subst) (t : Ty), s.apply t = Call.guarded ⟨s, [], t⟩) ∧
    (∀ s : Subst, s.Regular → ∀ t : Ty, t.Mono →
      (∀ x ∈ (s.apply t).freeVars, s[x]? = none) ∧ s.apply (s.apply t) = s.apply t ∧
        ∀ u, s.Settles t u ↔ u = s.apply t) ∧
    ∀ s : Subst, s.Flat → ∀ t : Ty, s.apply t = t.substAll s := by
  refine ⟨fun c d h => h.measure_lt, Call.wellFounded_makes,
    fun s t => (Call.guarded_eq ⟨s, [], t⟩).symm, fun s hs t ht => ⟨?_, hs.apply_apply ht, ?_⟩,
    fun s hs t => hs.apply_eq_substAll t⟩
  · exact Unify.resolved_apply hs ht
  · exact fun u => hs.settles_iff ht

/-- A cycle of two, a chain of two that takes two rounds, and a quantified type in which
    a quantifier hides a binding and another one captures a variable of the range. -/
theorem apply_ends_and_resolves_chain :
    let cycle : Subst := (∅ : Subst).insert "a" (.var "b") |>.insert "b" (.list (.var "a"))
    let chain : Subst := (∅ : Subst).insert "a" (.list (.var "b")) |>.insert "b" (.ref (.var "c"))
    let flat : Subst := (∅ : Subst).insert "a" (.list (.var "c")) |>.insert "b" .int
    Prod.Lex (· < ·) (· < ·) (Call.mk cycle ["b", "a"] (.list (.var "a"))).measure
        (Call.mk cycle ["a"] (.var "b")).measure ∧
      cycle.apply (.var "a") = .list (.var "a") ∧
      chain.apply (.arrow (.var "a") (.var "b")) =
        .arrow (.list (.ref (.var "c"))) (.ref (.var "c")) ∧
      chain.Settles (.arrow (.var "a") (.var "b"))
        (.arrow (.list (.ref (.var "c"))) (.ref (.var "c"))) ∧
      flat.apply (.all "b" (.arrow (.var "b") (.all "c" (.var "a")))) =
        .all "b" (.arrow (.var "b") (.all "c" (.list (.var "c")))) := by
  intro cycle chain flat
  obtain ⟨hlt, -, -, hregular, hflat⟩ := apply_ends_and_resolves
  have hbound : cycle["b"]? = some (.list (.var "a")) := by decide
  have hchain : chain.Regular :=
    (regular_empty.insert (x := "a") (t := .list (.var "b")) trivial (by simp) (by simp)).insert
      (x := "b") (t := .ref (.var "c")) trivial (by simp) (by simp)
  have happly : chain.apply (.arrow (.var "a") (.var "b")) =
      .arrow (.list (.ref (.var "c"))) (.ref (.var "c")) := by cbv
  have hflat' : flat.Flat := by
    rintro x y ⟨t, ht, hy⟩
    rcases getElem?_insert_some ht with ⟨-, rfl⟩ | ⟨-, ht⟩
    · simp at hy
    · rcases getElem?_insert_some ht with ⟨-, rfl⟩ | ⟨-, ht⟩
      · obtain rfl : y = "c" := by simpa using hy
        decide
      · exact absurd ht (by simp)
  refine ⟨hlt _ _ (.bound hbound (by decide)), by cbv, happly, ?_, ?_⟩
  · have hmono : (Ty.arrow (.var "a") (.var "b")).Mono := ⟨trivial, trivial⟩
    exact ((hregular chain hchain _ hmono).2.2 _).mpr happly.symm
  · rw [hflat flat hflat']
    decide

end MiniML.Subst
