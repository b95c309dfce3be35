/-
  MiniML/Proofs/Eval/Runs.lean
  ============================
  **Runs** — an evaluation iterates reduction.  It goes through a chain of
  configurations, each with another term than the one before, and shows each of them
  to its observer (`Run.loop_iterates`); how it ended says what the next step would do
  (`Run.Ended`).

  The bound is a cut-off and nothing else: a run that ends for another reason ends in
  the same way under every bound that admits its steps (`Run.loop_of_le`).  The rule
  that a step back to the same term ends a run loses nothing either, since such a step
  leaves the store as it was and would be repeated forever.
-/
import Mathlib
import MiniML.Eval.Run
import MiniML.Proofs.Eval.Reduction

namespace MiniML

/-- A step that changes the term. -/
def Config.Advances (c d : Config) : Prop := c.step? = some d ∧ d.term ≠ c.term

/-- What the status of a run says about where it ended. -/
def Run.Ended (r : Run) : Prop :=
  match r.status with
  | .normalForm => r.final.step? = none ∧ r.final.term.isValue = true
  | .stuck => (r.final.step? = none ∧ r.final.term.isValue = false) ∨
      ∃ c, r.final.step? = some c ∧ c.term = r.final.term
  | .outOfFuel => ∃ c, r.final.step? = some c ∧ c.term ≠ r.final.term

namespace Run.Ended

variable {r : Run}

/-- The three ways to end exclude each other, so each is told by what the next step would
    do. -/
theorem normalForm_iff (h : r.Ended) :
    r.status = .normalForm ↔ r.final.step? = none ∧ r.final.term.isValue = true := by
  rw [Ended] at h
  split at h <;> grind

theorem stuck_iff (h : r.Ended) :
    r.status = .stuck ↔ (r.final.step? = none ∧ r.final.term.isValue = false) ∨
      ∃ c, r.final.step? = some c ∧ c.term = r.final.term := by
  rw [Ended] at h
  split at h <;> grind

theorem outOfFuel_iff (h : r.Ended) : r.status = .outOfFuel ↔ ∃ c, r.final.Advances c := by
  rw [Ended] at h
  simp only [Config.Advances]
  split at h <;> grind

end Run.Ended

/-! ### Bounds -/

theorem stepBound_of_pos {maxSteps : Int64} (h : 0 < maxSteps) :
    (stepBound maxSteps : Int) = maxSteps.toInt := by
  rw [Int64.lt_iff_toInt_lt, Int64.toInt_zero] at h
  rw [stepBound, if_neg (by rw [Int64.le_iff_toInt_le, Int64.toInt_zero]; omega)]
  exact Int.toNat_of_nonneg (by omega)

theorem stepBound_of_nonpos {maxSteps : Int64} (h : maxSteps ≤ 0) : stepBound maxSteps = 1000 :=
  if_pos h

theorem one_le_stepBound (m : Int64) : 1 ≤ stepBound m := by
  rw [stepBound]
  split
  · decide
  · rename_i hpos
    rw [Int64.le_iff_toInt_le, Int64.toInt_zero] at hpos
    omega

theorem stepBound_le (maxSteps : Int64) : (stepBound maxSteps : Int) ≤ 2 ^ 63 - 1 := by
  have hle : maxSteps.toInt ≤ 2 ^ 63 - 1 := maxSteps.toInt_le
  rw [stepBound]
  split
  · decide
  · omega

/-! ### The loop -/

section Loop

variable {σ τ : Type} (observe : σ → Nat → Config → σ)

theorem Run.settled_ne_outOfFuel (t : Term) : settled t ≠ .outOfFuel := by
  rw [settled]
  split <;> decide

/-- The configurations of a run are a chain of steps that change the term, one for each
    step that is counted, and the observer sees them in order with their numbers. -/
theorem Run.loop_iterates (left steps : Nat) (c : Config) (seen : σ) :
    let r := Run.loop observe left steps c seen
    ∃ cs : List Config, (c :: cs).IsChain Config.Advances ∧
      (c :: cs).getLast? = some r.1.final ∧ r.1.steps = steps + cs.length ∧ cs.length ≤ left ∧
      (r.1.status = .outOfFuel → cs.length = left) ∧
      r.2 = (cs.zipIdx (steps + 1)).foldl (fun seen p => observe seen p.2 p.1) seen := by
  fun_induction Run.loop observe left steps c seen with
  | case1 left steps c seen hnone =>
    exact ⟨[], .singleton c, rfl, rfl, Nat.zero_le _,
      fun h => absurd h (settled_ne_outOfFuel c.term), rfl⟩
  | case2 left steps c seen c' hc' hsame =>
    exact ⟨[], .singleton c, rfl, rfl, Nat.zero_le _, (nomatch ·), rfl⟩
  | case3 steps c seen c' hc' hne =>
    exact ⟨[], .singleton c, rfl, rfl, Nat.zero_le _, fun _ => rfl, rfl⟩
  | case4 steps c seen c' hc' hne left ih =>
    obtain ⟨cs, hchain, hlast, hsteps, hle, hfuel, hseen⟩ := ih
    refine ⟨c' :: cs, hchain.cons_cons ⟨hc', hne⟩, hlast, ?_, Nat.succ_le_succ hle,
      fun h => congrArg (· + 1) (hfuel h), hseen⟩
    rw [hsteps, List.length_cons]
    omega

theorem Run.loop_ended (left steps : Nat) (c : Config) (seen : σ) :
    (Run.loop observe left steps c seen).1.Ended := by
  fun_induction Run.loop observe left steps c seen with
  | case1 left steps c seen hnone =>
    cases hv : c.term.isValue <;> simp [Ended, settled, hv, hnone]
  | case2 left steps c seen c' hc' hsame => exact .inr ⟨c', hc', hsame⟩
  | case3 steps c seen c' hc' hne => exact ⟨c', hc', hne⟩
  | case4 steps c seen c' hc' hne left ih => exact ih

/-- A run counts its steps, and takes no more than it may. -/
theorem Run.loop_steps (left steps : Nat) (c : Config) (seen : σ) :
    steps ≤ (Run.loop observe left steps c seen).1.steps ∧
      (Run.loop observe left steps c seen).1.steps ≤ steps + left := by
  obtain ⟨cs, -, -, hsteps, hle, -, -⟩ := Run.loop_iterates observe left steps c seen
  omega

/-- What every step of a run keeps, the run keeps.  The property may depend on the
    number of steps that were taken. -/
theorem Run.loop_invariant {P : Nat → Config → Prop} {left steps : Nat} {c : Config} {seen : σ}
    {r : Run} (hr : (Run.loop observe left steps c seen).1 = r)
    (hP : ∀ {n : Nat} {c c' : Config}, n < r.steps → P n c → c.step? = some c' → P (n + 1) c')
    (h : P steps c) : P r.steps r.final := by
  fun_induction Run.loop observe left steps c seen with
  | case1 | case2 | case3 => exact hr ▸ h
  | case4 steps c seen c' hc' hne left ih =>
    have hle := (Run.loop_steps observe left (steps + 1) c' (observe seen (steps + 1) c')).1
    rw [hr] at hle
    exact ih hr (hP (by omega) h hc')

/-- A run that ended for another reason than its bound ends in the same way under every
    bound that admits its steps. -/
theorem Run.loop_of_le {left left' steps : Nat} {c : Config} {seen : σ}
    (h : (Run.loop observe left steps c seen).1.status ≠ .outOfFuel)
    (hle : (Run.loop observe left steps c seen).1.steps ≤ steps + left') :
    Run.loop observe left' steps c seen = Run.loop observe left steps c seen := by
  fun_induction Run.loop observe left steps c seen generalizing left' with
  | case1 left steps c seen hnone =>
    rw [Run.loop]
    simp only [hnone]
  | case2 left steps c seen c' hc' hsame =>
    rw [Run.loop]
    simp only [hc', if_pos hsame]
  | case3 steps c seen c' hc' hne => exact absurd rfl h
  | case4 steps c seen c' hc' hne left ih =>
    -- the step to `c'` is counted, so the other bound admits one step at least
    have hgrow := (Run.loop_steps observe left (steps + 1) c' (observe seen (steps + 1) c')).1
    obtain ⟨left', rfl⟩ : ∃ k, left' = k + 1 := ⟨left' - 1, by omega⟩
    rw [Run.loop]
    simp only [hc', if_neg hne]
    exact ih h (by omega)

theorem Run.loop_of_after {n left : Nat} {c d : Config}
    (h : after Config.step? n c = some d) (hd : d.step? = none) (hn : n ≤ left) (steps : Nat)
    (seen : σ) : (Run.loop observe left steps c seen).1 = ⟨d, steps + n, settled d.term⟩ := by
  induction n generalizing left steps c seen with
  | zero =>
    cases h
    rw [Run.loop]
    simp only [hd]
    rfl
  | succ n ih =>
    rw [after] at h
    obtain ⟨c', hc', h'⟩ := Option.bind_eq_some_iff.mp h
    obtain ⟨left, rfl⟩ : ∃ k, left = k + 1 := ⟨left - 1, by omega⟩
    -- a step back to the same term would be repeated and never lead to `d`
    have hne : c'.term ≠ c.term := by
      intro hsame
      obtain rfl := Config.eq_of_step? hc' hsame
      obtain rfl := Option.some.inj ((after_of_fixed hc' n).symm.trans h')
      simp [hd] at hc'
    rw [Run.loop]
    simp only [hc', if_neg hne]
    rw [ih h' (by omega), Nat.add_right_comm, Nat.add_assoc]

/-- What a run leads to does not depend on who looks at it. -/
theorem Run.loop_fst (observe' : τ → Nat → Config → τ) (left steps : Nat) (c : Config) (seen : σ)
    (seen' : τ) : (Run.loop observe left steps c seen).1 = (Run.loop observe' left steps c seen').1 := by
  fun_induction Run.loop observe left steps c seen generalizing seen' with
  | case1 left steps c seen hnone =>
    rw [Run.loop]
    simp only [hnone]
  | case2 left steps c seen c' hc' hsame =>
    rw [Run.loop]
    simp only [hc', if_pos hsame]
  | case3 steps c seen c' hc' hne =>
    rw [Run.loop]
    simp only [hc', if_neg hne]
  | case4 steps c seen c' hc' hne left ih =>
    rw [ih (observe' seen' (steps + 1) c')]
    conv_rhs => rw [Run.loop]
    simp only [hc', if_neg hne]

/-- A chain of steps counts them. -/
theorem after_of_isChain {c : Config} {cs : List Config} (h : (c :: cs).IsChain Config.Advances)
    {k : Nat} {d : Config} (hk : (c :: cs)[k]? = some d) : after Config.step? k c = some d := by
  induction cs generalizing c k with
  | nil =>
    rw [List.getElem?_singleton] at hk
    split at hk
    · rename_i hzero
      rw [hzero]
      exact hk
    · cases hk
  | cons c' cs ih =>
    obtain ⟨⟨hc', -⟩, hrest⟩ := List.isChain_cons_cons.mp h
    cases k with
    | zero => exact hk
    | succ k => rw [after, hc', Option.bind_some, ih hrest hk]

/-- The configurations that a recorded run has gone through. -/
theorem Run.loop_records (left steps : Nat) (c : Config) (seen : List (Nat × Config)) :
    let r := Run.loop (fun seen n c => (n, c) :: seen) left steps c seen
    ∃ cs : List Config, r.2.reverse.map Prod.snd = seen.reverse.map Prod.snd ++ cs ∧
      r.1.steps = steps + cs.length ∧ (c :: cs).getLast? = some r.1.final ∧
      (c :: cs).IsChain Config.Advances := by
  intro r
  obtain ⟨cs, hchain, hlast, hsteps, -, -, hseen⟩ :=
    Run.loop_iterates (fun seen n c => (n, c) :: seen) left steps c seen
  have hrecord : r.2 = ((cs.zipIdx (steps + 1)).map fun p => (p.2, p.1)).reverse ++ seen :=
    hseen.trans List.foldl_flip_cons_eq_append
  refine ⟨cs, ?_, hsteps, hlast, hchain⟩
  rw [hrecord, List.reverse_append, List.reverse_reverse, List.map_append, List.map_map]
  exact congrArg (seen.reverse.map Prod.snd ++ ·) (List.zipIdx_map_fst (steps + 1) cs)

/-- They are what its steps lead to, counted from the first one. -/
theorem Run.loop_visits (left steps : Nat) (c : Config) (seen : List (Nat × Config)) :
    let r := Run.loop (fun seen n c => (n, c) :: seen) left steps c seen
    ∃ cs : List Config, r.2.reverse.map Prod.snd = seen.reverse.map Prod.snd ++ cs ∧
      r.1.steps = steps + cs.length ∧ (c :: cs).getLast? = some r.1.final ∧
      ∀ {k : Nat} {d : Config}, (c :: cs)[k]? = some d → after Config.step? k c = some d := by
  obtain ⟨cs, hseen, hsteps, hlast, hchain⟩ := Run.loop_records left steps c seen
  exact ⟨cs, hseen, hsteps, hlast, after_of_isChain hchain⟩

theorem Run.after_loop (left : Nat) (c : Config) (seen : σ) :
    after Config.step? (Run.loop observe left 0 c seen).1.steps c =
      some (Run.loop observe left 0 c seen).1.final := by
  obtain ⟨cs, hchain, hlast, hsteps, -⟩ := Run.loop_iterates observe left 0 c seen
  rw [hsteps, Nat.zero_add]
  rw [List.getLast?_eq_getElem?, List.length_cons, Nat.add_sub_cancel] at hlast
  exact after_of_isChain hchain hlast

end Loop

/-! ### Evaluation -/

section Evaluation

variable {σ : Type} (observe : σ → Nat → Config → σ) (init : σ) (t : Term) (s : Store)
  (maxSteps : Int64)

/-- **Evaluation is bounded iteration of reduction.**  It takes at most as many steps as
    its bound, which is 1000 unless the setting is positive.  From the term with its
    binders renamed apart it goes along a chain of steps that change the term, one for
    each step that it counts, and shows them to the observer in order with their numbers
    from 1 on.  Its status says exactly what holds where it ended, and a value takes no
    further step.  If the bound was not the reason to end, then every positive bound that
    admits the steps gives the same result. -/
theorem eval_iterates :
    ((0 < maxSteps → (stepBound maxSteps : Int) = maxSteps.toInt) ∧
      (maxSteps ≤ 0 → stepBound maxSteps = 1000)) ∧
    let r := (evalWith observe init t s maxSteps).1
    r.steps ≤ stepBound maxSteps ∧
    (∃ cs : List Config, cs.length = r.steps ∧
      (Run.start t s :: cs).IsChain Config.Advances ∧
      (Run.start t s :: cs).getLast? = some r.final ∧
      (evalWith observe init t s maxSteps).2 =
        (cs.zipIdx 1).foldl (fun seen p => observe seen p.2 p.1) init) ∧
    (r.status = .normalForm ↔ r.final.step? = none ∧ r.final.term.isValue = true) ∧
    (r.status = .stuck ↔ (r.final.step? = none ∧ r.final.term.isValue = false) ∨
      ∃ c, r.final.step? = some c ∧ c.term = r.final.term) ∧
    (r.status = .outOfFuel ↔ r.steps = stepBound maxSteps ∧ ∃ c, r.final.Advances c) ∧
    (r.final.term.isValue = true → r.final.step? = none) ∧
    (r.status ≠ .outOfFuel → ∀ m : Int64, 0 < m → r.steps ≤ m.toInt →
      evalWith observe init t s m = evalWith observe init t s maxSteps) := by
  refine ⟨⟨stepBound_of_pos, stepBound_of_nonpos⟩, ?_⟩
  intro r
  obtain ⟨cs, hchain, hlast, hsteps, hle, hfuel, hseen⟩ :=
    Run.loop_iterates observe (stepBound maxSteps) 0 (Run.start t s) init
  rw [Nat.zero_add] at hsteps hseen
  have hended : r.Ended := Run.loop_ended ..
  refine ⟨hsteps ▸ hle, ⟨cs, hsteps.symm, hchain, hlast, hseen⟩, hended.normalForm_iff,
    hended.stuck_iff, ?_, step_eq_none_of_isValue _, fun hstatus m hm hadmits => ?_⟩
  · refine ⟨fun h => ⟨hsteps.trans (hfuel h), hended.outOfFuel_iff.mp h⟩, fun h => ?_⟩
    exact hended.outOfFuel_iff.mpr h.2
  · have hbound := stepBound_of_pos hm
    refine Run.loop_of_le observe hstatus ?_
    change r.steps ≤ 0 + stepBound m
    omega

end Evaluation

/-- `add 1 (add 2 3)` takes two steps: its result under the bound 2 is that under every
    larger one, and with the bound 1 it stops at `add 1 5`, which could go on. -/
theorem eval_iterates_sum :
    let t : Term := .add (.int 1) (.add (.int 2) (.int 3))
    eval t .empty 2 = ⟨⟨.int 6, .empty⟩, 2, .normalForm⟩ ∧
      (∀ m : Int64, 0 < m → 2 ≤ m.toInt → evalTraced t .empty m = evalTraced t .empty 2) ∧
      (eval t .empty 1).status = .outOfFuel ∧ (eval t .empty 1).steps = stepBound 1 ∧
      ∃ c, (eval t .empty 1).final.Advances c := by
  intro t
  have hsum : eval t .empty 2 = ⟨⟨.int 6, .empty⟩, 2, .normalForm⟩ := by cbv
  have hshort : (eval t .empty 1).status = .outOfFuel := by cbv
  refine ⟨hsum, fun m hm hadmits => ?_, hshort, ?_⟩
  · have hrun : (evalWith (fun seen n c => (n, c) :: seen) [] t .empty 2).1 =
        ⟨⟨.int 6, .empty⟩, 2, .normalForm⟩ := by cbv
    obtain ⟨-, -, -, -, -, -, -, hsame⟩ :=
      eval_iterates (fun seen n c => (n, c) :: seen) [] t .empty 2
    rw [hrun] at hsame
    rw [evalTraced, hsame (by decide) m hm hadmits, evalTraced]
  · obtain ⟨-, -, -, -, -, hfuel, -⟩ := eval_iterates (fun _ _ _ => ()) () t .empty 1
    exact hfuel.mp hshort

/-! ### Steps back to the same term -/

/-- **The rule against steps that change nothing drops no effect.**  If a step changes the
    store, then it changes the term, it changes the content of one region at most, and it
    removes none.  So if a run ends because a step leads back to the same term, the step
    leads back to the same configuration, over and over. -/
theorem unchanged_term_keeps_store :
    (∀ (s : Store) (t : Term) (c : Config), step s t = some c → c.store ≠ s →
      c.term ≠ t ∧ (∃ i, ∀ j, j ≠ i → c.store.get? j = s.get? j) ∧
        ∀ j, (s.get? j).isSome = true → (c.store.get? j).isSome = true) ∧
    ∀ (σ : Type) (observe : σ → Nat → Config → σ) (init : σ) (t : Term) (s : Store)
      (maxSteps : Int64) (c : Config),
      let r := (evalWith observe init t s maxSteps).1
      r.status = .stuck → r.final.step? = some c →
        c = r.final ∧ ∀ n, after Config.step? n r.final = some r.final := by
  constructor
  · intro s t c h hne
    obtain hsame | ⟨hlt, i, v, hset⟩ := (Reduces.of_step h).store_eq_or_set
    · exact absurd hsame hne
    refine ⟨fun hterm => Nat.lt_irrefl _ (hterm ▸ hlt), ⟨i, fun j hj => ?_⟩, fun j hj => ?_⟩
    · rw [hset, Store.get?_set, if_neg (Ne.symm hj)]
    · rw [hset, Store.get?_set]
      split
      · rfl
      · exact hj
  · intro σ observe init t s maxSteps c r hstuck hc
    have hended : r.Ended := Run.loop_ended ..
    obtain ⟨hnone, -⟩ | ⟨c', hc', hsame⟩ := hended.stuck_iff.mp hstuck
    · rw [hnone] at hc
      cases hc
    · obtain rfl := Option.some.inj (hc.symm.trans hc')
      obtain rfl := Config.eq_of_step? hc hsame
      exact ⟨rfl, after_of_fixed hc⟩

/-- An assignment inside a list; and `(λx. x x) (λx. x x)`, which steps to itself once its
    binders have the same name. -/
theorem unchanged_term_keeps_store_omega :
    let s : Store := Store.empty.set 0 (.int 1)
    let t : Term := .cons (.assign (.region 0) (.int 2)) .nil
    let c : Config := ⟨.cons .unit .nil, s.set 0 (.int 2)⟩
    let selfApp : Term := .abs "x" (.app (.var "x") (.var "x"))
    let r := eval (.app selfApp selfApp) s 10
    (step s t = some c ∧ c.store ≠ s ∧ c.term ≠ t ∧ ∃ i, ∀ j, j ≠ i → c.store.get? j = s.get? j) ∧
      r.status = .stuck ∧ r.steps = 1 ∧ ∀ n, after Config.step? n r.final = some r.final := by
  intro s t c selfApp r
  obtain ⟨hstep, hrun⟩ := unchanged_term_keeps_store
  have hc : step s t = some c := rfl
  have hne : c.store ≠ s := by
    intro h
    have hget := congrArg (Store.get? · 0) h
    simp [c, s, Store.get?_set] at hget
  obtain ⟨hterm, hcell, -⟩ := hstep s t c hc hne
  have hr : eval (.app selfApp selfApp) s 10 =
      ⟨⟨.app (.abs "_v1" (.app (.var "_v1") (.var "_v1")))
        (.abs "_v1" (.app (.var "_v1") (.var "_v1"))), s⟩, 1, .stuck⟩ := by cbv
  have hstuck : r.status = .stuck := congrArg Run.status hr
  have hfinal : r.final.step? = some r.final := by
    rw [show r.final = _ from congrArg Run.final hr]
    rfl
  exact ⟨⟨hc, hne, hterm, hcell⟩, hstuck, congrArg Run.steps hr,
    (hrun Unit (fun _ _ _ => ()) () (.app selfApp selfApp) s 10 r.final hstuck hfinal).2⟩

end MiniML
