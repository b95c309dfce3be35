/-
  MiniML/Proofs/Typing/Scope.lean
  ===============================
  **No variable is unbound** — looking up a variable may fail, and `TypeFault.unbound`
  stands for that.  It never comes to this: a typing gives every free variable of its
  term a type before it starts, and from then on the environment grows at every binder and
  loses nothing (`Call.Makes.scoped`).  So the only faults are those of unification.

  The value of a `let` is not in the scope of its name.  A variable of that name in the
  value is free in the whole, so it has a type from the start or from a binder further
  out.
-/
import MiniML.Proofs.Term.Nameless
import MiniML.Proofs.Typing.Context
import MiniML.Proofs.Typing.Quantifiers

namespace MiniML

/-- A substitution changes types, not the variables that have one. -/
theorem TypeEnv.mem_apply {env : TypeEnv} {θ : Subst} {x : String} :
    x ∈ env.apply θ ↔ x ∈ env := by
  rw [apply, Std.ExtTreeMap.mem_map]

namespace Infer

/-- Every free variable of the term is bound in the environment. -/
def Call.Scoped (c : Call) : Prop := ∀ x ∈ c.term.freeVars, x ∈ c.env

/-! ### Parts of a term -/

section Parts

variable {t : Term} {x : String}

theorem Operand.mem_freeVars {o : Term} (h : Operand t o) (hx : x ∈ o.freeVars) :
    x ∈ t.freeVars := by
  cases h with
  | letIn => exact Term.mem_freeVars_letIn.mpr (.inl hx)
  | head | tail | fix | mkRef | deref => exact hx
  | ifZero | ifEmpty => simp [Term.freeVars, hx]

theorem Pair.mem_freeVars {l r : Term} (h : Pair t l r) :
    x ∈ t.freeVars ↔ x ∈ l.freeVars ∨ x ∈ r.freeVars := by
  cases h with
  | app | add | sub | cons | assign => exact Std.ExtTreeSet.mem_union_iff

theorem Tested.mem_freeVars {fuel : Nat} {env : TypeEnv} {s s₁ : NameSupply} {a b : Term}
    {θ : Subst} (h : Tested fuel env s t a b θ s₁) (hx : x ∈ a.freeVars ∨ x ∈ b.freeVars) :
    x ∈ t.freeVars := by
  cases h with
  | ifZero | ifEmpty =>
    rcases hx with hx | hx <;> simp [Term.freeVars, hx]

end Parts

/-! ### Calls -/

section Calls

variable {fuel : Nat} {c c' : Call}

/-- A call whose variables are bound makes only such calls. -/
theorem Call.Makes.scoped (h : c.Makes fuel c') (hc : c.Scoped) : c'.Scoped := by
  intro y hy
  cases h with
  | operand ho => exact hc y (ho.mem_freeVars hy)
  | left hp => exact hc y (hp.mem_freeVars.mpr (.inl hy))
  | right hp _ => exact TypeEnv.mem_apply.mpr (hc y (hp.mem_freeVars.mpr (.inr hy)))
  | @body env x b s =>
    rw [Std.ExtTreeMap.mem_insert, Std.LawfulEqCmp.compare_eq_iff_eq]
    by_cases hyx : x = y
    · exact .inl hyx
    · exact .inr (hc y (Term.mem_freeVars_abs.mpr ⟨Ne.symm hyx, hy⟩))
  | @letBody env x v b =>
    rw [Std.ExtTreeMap.mem_insert, Std.LawfulEqCmp.compare_eq_iff_eq, TypeEnv.mem_apply]
    by_cases hyx : x = y
    · exact .inl hyx
    · exact .inr (hc y (Term.mem_freeVars_letIn.mpr (.inr ⟨Ne.symm hyx, hy⟩)))
  | thenBranch ht => exact TypeEnv.mem_apply.mpr (hc y (ht.mem_freeVars (.inl hy)))
  | elseBranch ht _ => exact TypeEnv.mem_apply.mpr (hc y (ht.mem_freeVars (.inr hy)))

theorem Call.Leads.scoped (h : c.Leads fuel c') (hc : c.Scoped) : c'.Scoped := by
  induction h with
  | refl => exact hc
  | tail _ hmakes ih => exact hmakes.scoped ih

/-- A call whose variables are bound raises no fault but those of its unifications. -/
theorem Call.Raises.of_scoped {e : TypeError} (h : c.Raises fuel e) (hc : c.Scoped) :
    ∃ fault, e = ⟨.unify fault, c.term⟩ := by
  cases h with
  | @unbound env x s hx =>
    have hmem : x ∈ env := hc x (Term.mem_freeVars_var.mpr rfl)
    rw [Std.ExtTreeMap.mem_iff_isSome_getElem?, hx] at hmem
    cases hmem
  | @unify _ _ _ _ fault _ _ => exact ⟨fault, rfl⟩

/-- The seeds of its free variables bind what the environment does not. -/
theorem Call.scoped_entry (env : TypeEnv) (t : Term) (s : NameSupply) :
    (Call.entry env t s).Scoped := by
  intro x hx
  obtain ⟨number, -, -, hget⟩ := seeds_eq t.freeVars.toList s
  have hseed := (hget x).trans (if_pos (Std.ExtTreeSet.mem_toList.mpr hx))
  rw [Std.ExtTreeMap.mem_iff_isSome_getElem?, Call.entry, TypeEnv.getElem?_merge, hseed]
  simp

end Calls

end Infer

/-- **No variable is unbound.**  Whatever a context was used for before and whatever the
    environment binds, a typing of a term either succeeds or fails in a unification; and in
    every call of inference on the way, whether the typing succeeds or not, all variables
    that are free in the sub-term are bound in the environment that it is given. -/
theorem no_variable_is_unbound (ctx : InferContext) (env : TypeEnv) (t : Term) :
    ((∃ r, (ctx.infer (some t) env).1 = .ok r) ∨
      ∃ fault part, (ctx.infer (some t) env).1 = .error (.typeError ⟨.unify fault, part⟩)) ∧
    ∀ c, (Infer.Call.entry env t ctx.reset.supply).Leads (unifyBudget ctx.fuel) c →
      ∀ x ∈ c.term.freeVars, x ∈ c.env := by
  have hentry := Infer.Call.scoped_entry env t ctx.reset.supply
  refine ⟨?_, fun c hc => hc.scoped hentry⟩
  rw [InferContext.infer_fst, InferContext.query_fst]
  rcases h : Infer.typing (unifyBudget ctx.fuel) env t ctx.reset.supply with ⟨e | r, s'⟩
  · obtain ⟨c, hc, hraises⟩ := Infer.infer_error
      (c := Infer.Call.entry env t ctx.reset.supply) (Infer.run_typing_error h)
    obtain ⟨fault, rfl⟩ := hraises.of_scoped (hc.scoped hentry)
    exact .inr ⟨fault, c.term, rfl⟩
  · exact .inl ⟨r, rfl⟩

/-- `let x = x in 1 x` in a context that has drawn a name before.  The `x` in the value is
    another one than that in the body, and has a type as well; the typing fails in the
    unification of the application. -/
theorem no_variable_is_unbound_shadowed :
    let ctx := InferContext.serveAll [.instantiate (.all "a" (.var "a"))]
    let t : Term := .letIn "x" (.var "x") (.app (.int 1) (.var "x"))
    let start := Infer.Call.entry ∅ t ctx.reset.supply
    (∃ fault part, (ctx.infer (some t) ∅).1 = .error (.typeError ⟨.unify fault, part⟩)) ∧
      start.Leads 1000 ⟨start.env, .var "x", start.supply⟩ ∧ start.env["x"]? = some (.var "T1") ∧
        ∀ y ∈ (Term.var "x").freeVars, y ∈ start.env := by
  intro ctx t start
  obtain ⟨hanswer, hcalls⟩ := no_variable_is_unbound ctx ∅ t
  have hvalue : start.Leads 1000 ⟨start.env, .var "x", start.supply⟩ := .single (.operand .letIn)
  have hfails : (ctx.infer (some t) ∅).1.isOk = false := by cbv
  refine ⟨hanswer.resolve_left ?_, hvalue, by cbv, hcalls _ hvalue⟩
  rintro ⟨r, hr⟩
  rw [hr] at hfails
  cases hfails

end MiniML
