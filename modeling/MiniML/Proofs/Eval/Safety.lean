/-
  MiniML/Proofs/Eval/Safety.lean
  ==============================
  **Type safety of a program** — a closed program that has a type never applies an
  operation to a value of the wrong type, and if it comes to a value, then to one of
  the shape that its type asks for.

  The three parts of the argument meet here: inference answers with a declarative
  typing, a declarative typing is uniform and survives the renaming of binders, and
  reduction keeps uniform typings until it ends in a value or in a blocked term.
  What a run keeps follows from what a step keeps by `Run.loop_invariant`.
-/
import MiniML.Proofs.Eval.Progress
import MiniML.Proofs.Eval.Runs
import MiniML.Proofs.Term.Alpha
import MiniML.Proofs.Typing.Soundness

namespace MiniML

/-! ### Runs -/

/-- **A run keeps types.**  The regions that were there keep their types.  The ids of
    the regions that the steps may allocate must fit in 64-bit words. -/
theorem Closed.run {σ : Type} (observe : σ → Nat → Config → σ) (init : σ) {Ψ : StoreTyping}
    {t : Term} {s : Store} {maxSteps : Int64} (hs : s.Typed Ψ) (hbinders : t.binders ≤ 2 ^ 63)
    (hroom : s.next.toInt + (evalWith observe init t s maxSteps).1.steps ≤ 2 ^ 63 - 1)
    {ι : Type} [Nonempty ι] {τ : ι → Ty} (h : Closed Ψ t τ) :
    ∃ Ψ' : StoreTyping, (∀ id σ, Ψ id σ → Ψ' id σ) ∧
      (evalWith observe init t s maxSteps).1.final.store.Typed Ψ' ∧
      Closed Ψ' (evalWith observe init t s maxSteps).1.final.term τ := by
  let P : Nat → Config → Prop := fun n c =>
    ∃ Ψ' : StoreTyping, (∀ id σ, Ψ id σ → Ψ' id σ) ∧ c.store.Typed Ψ' ∧
      c.store.next.toInt ≤ s.next.toInt + n ∧ Closed Ψ' c.term τ
  have hstart : P 0 (Run.start t s) := by
    have hlimit : (0 : Int) + t.binders ≤ 2 ^ 63 := by omega
    refine ⟨Ψ, fun _ _ => id, hs, by simp [Run.start], ?_⟩
    exact Uniform.alphaConvert (Int.le_refl _) (Int.le_refl 0) hlimit h fun _ _ _ hx => hx.elim
  have hstep : ∀ {n : Nat} {c c' : Config}, n < (evalWith observe init t s maxSteps).1.steps →
      P n c → c.step? = some c' → P (n + 1) c' := by
    rintro n c c' hn ⟨Ψ₁, hΨ₁, hs₁, hle, h₁⟩ hc
    obtain ⟨Ψ₂, hΨ₂, hs₂, hnext, h₂⟩ := Closed.step hs₁ (by omega) hc h₁
    exact ⟨Ψ₂, fun id σ hσ => hΨ₂ id σ (hΨ₁ id σ hσ), hs₂, by omega, h₂⟩
  obtain ⟨Ψ', hΨ', hs', -, h'⟩ := Run.loop_invariant observe rfl hstep hstart
  exact ⟨Ψ', hΨ', hs', h'⟩

/-! ### How typed runs end -/

/-- A configuration that is stuck for no reason that types could exclude: a step
    leads back to the same term, or an evaluated part of the term is blocked. -/
def Config.Stalls (c : Config) : Prop :=
  (∃ c', c.step? = some c' ∧ c'.term = c.term) ∨ c.term.Blocked

theorem Run.Ended.stalls {r : Run} (he : r.Ended) {Ψ : StoreTyping} (hs : r.final.store.Typed Ψ)
    {T : Ty} (h : Closed Ψ r.final.term fun _ : Unit => T) (hr : r.status = .stuck) :
    r.final.Stalls := by
  rw [Run.Ended, hr] at he
  obtain ⟨hnone, hv⟩ | hsame := he
  · obtain hv' | hb := Closed.progress hs h hnone
    · exact absurd hv' (by simp [hv])
    · exact .inr hb
  · exact .inl hsame

theorem Run.Ended.hasShape {r : Run} (he : r.Ended) {Ψ : StoreTyping}
    (hs : r.final.store.Typed Ψ) {T : Ty} (h : Closed Ψ r.final.term fun _ : Unit => T)
    (hr : r.status = .normalForm) : r.final.term.hasShape r.final.store T = true := by
  rw [Run.Ended, hr] at he
  exact Closed.hasShape hs h he.2

theorem Store.typed_empty : Store.empty.Typed fun _ _ => False :=
  ⟨False.elim, False.elim, False.elim⟩

theorem TypeEnv.ready_empty {s : NameSupply} {limit : Int} (hpos : 0 ≤ s.count)
    (hl : limit ≤ 2 ^ 63) : Ready ∅ s limit where
  start := hpos
  bound := hl
  prenex h := absurd h (by simp)
  free v hv := by
    obtain ⟨x, σ, hx, -⟩ := mem_freeTypeVars.mp hv
    exact absurd hx (by simp)
  quantified q := by
    rintro ⟨x, σ, hx, -⟩
    exact absurd hx (by simp)

/-- A closed term without regions whose type is inferred has that type in the empty
    store. -/
theorem closed_of_inferType {fuel : Nat} {t : Term} {r : Typing} (hclosed : t.freeVars = ∅)
    (hregions : t.regions = []) (hdrawn : Infer.drawn fuel ∅ t ≤ 2 ^ 63)
    (h : inferType fuel ∅ t = .ok r) : Closed (fun _ _ => False) t fun _ : Unit => r.type := by
  obtain ⟨-, htype⟩ := Infer.typing_scoped (s := .forTypes "" 0)
    (TypeEnv.ready_empty (Int.le_refl 0) (Int.le_refl _)) (by simp [hclosed])
    (Prod.ext h rfl) hdrawn
  have huniform := htype.uniform (Ψ := fun _ _ => False)
    (Term.allRegions_iff.mpr (by simp [hregions])) (θ := fun _ : Unit => Ty.var)
    (fun _ _ => trivial) (fun _ _ _ => rfl) (Γ := fun _ => Uses.none) ?_
  · simp only [Ty.bind_var] at huniform
    exact huniform.relax
  · rintro - x σ ⟨ρ, hx, -⟩
    obtain ⟨ρ', hx', -⟩ := TypeEnv.getElem?_apply_some hx
    exact absurd hx' (by simp)

/-- **Type safety.**  A closed program of a type that is run for any number of steps
    is stuck only where types do not help, and a value that it comes to has the shape
    of the type.  The numbers in the names that inference and renaming draw must not
    overflow their 64-bit words. -/
theorem eval_safe {fuel : Nat} {t : Term} {r : Typing} (hclosed : t.freeVars = ∅)
    (hregions : t.regions = []) (hbinders : t.binders ≤ 2 ^ 63)
    (hdrawn : Infer.drawn fuel ∅ t ≤ 2 ^ 63) (h : inferType fuel ∅ t = .ok r)
    (maxSteps : Int64) :
    ((eval t .empty maxSteps).status = .stuck → (eval t .empty maxSteps).final.Stalls) ∧
    ((eval t .empty maxSteps).status = .normalForm →
      (eval t .empty maxSteps).final.term.hasShape (eval t .empty maxSteps).final.store r.type =
        true) := by
  have htyped := closed_of_inferType hclosed hregions hdrawn h
  have hroom : Store.empty.next.toInt + (eval t .empty maxSteps).steps ≤ 2 ^ 63 - 1 := by
    have hsteps : (eval t .empty maxSteps).steps ≤ 0 + stepBound maxSteps :=
      (Run.loop_steps _ _ _ _ _).2
    have hbound := stepBound_le maxSteps
    have hnext : Store.empty.next.toInt = 0 := rfl
    omega
  obtain ⟨Ψ, -, hs, hfinal⟩ :=
    htyped.run (fun _ _ _ => ()) () Store.typed_empty hbinders hroom
  have hended : (eval t .empty maxSteps).Ended := Run.loop_ended _ _ _ _ _
  exact ⟨hended.stalls hs hfinal, hended.hasShape hs hfinal⟩

/-- A program that makes a list of one number, keeps it in a region, and takes the
    head of its tail: it has the type of numbers and is stuck. -/
theorem eval_safe_head_nil :
    let t : Term := .letIn "f" (.abs "x" (.cons (.var "x") .nil))
      (.letIn "r" (.mkRef (.app (.var "f") (.int 1))) (.head (.tail (.deref (.var "r")))))
    ∃ r, inferType 100 ∅ t = .ok r ∧ r.type = .int ∧
      (eval t .empty 50).status = .stuck ∧ (eval t .empty 50).final.Stalls := by
  intro t
  have hrun : (fun p : Except TypeError Typing × NameSupply =>
      (p.1.toOption.map (·.type), p.2.count)) ((Infer.typing 100 ∅ t).run (.forTypes "" 0)) =
        (some .int, 7) := by cbv
  have hdrawn : Infer.drawn 100 ∅ t = 7 := congrArg Prod.snd hrun
  have htype : (inferType 100 ∅ t).toOption.map (·.type) = some .int := congrArg Prod.fst hrun
  have hstuck : (eval t .empty 50).status = .stuck := by cbv
  cases h : inferType 100 ∅ t with
  | error e =>
    rw [h] at htype
    exact absurd htype (by simp [Except.toOption])
  | ok r =>
    rw [h] at htype
    refine ⟨r, rfl, Option.some.inj htype, hstuck, ?_⟩
    exact (eval_safe (by cbv) (by cbv) (by decide) (by omega) h 50).1 hstuck

end MiniML
