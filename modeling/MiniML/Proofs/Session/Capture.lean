/-
  MiniML/Proofs/Session/Capture.lean
  ==================================
  **Weak variables that are resolved in a scheme** — a statement may find out what weak
  variables stand for.  The session then puts this in their place in every scheme that
  it keeps, and makes weak what it leaves free.

  The schemes keep their quantifiers and nothing is renamed.  What results is right,
  up to the names of the quantified variables, if the scheme quantifies none of the
  type variables that are issued for the statement (`Session.Spared`); this is asked of
  the scheme in question alone, and not of the statements before, which may have
  captured what they like.  It cannot be dropped: type variables are issued from `T0`
  on for every statement, and schemes quantify such names.
-/
import MiniML.Proofs.Session.Safety
import MiniML.Proofs.Ty.Nameless

namespace MiniML.Session

/-- The numbers of the type variables that are issued for a statement fit in 64-bit
    words. -/
def TypesFit (s : Session) (st : Statement) : Prop := s.drawn st ≤ 2 ^ 63

/-- The scheme quantifies no type variable that is issued for the statement, or it has
    no weak variables. -/
def Spared (s : Session) (st : Statement) (σ : Ty) : Prop :=
  σ.freeVars ≠ [] → ∀ q ∈ σ.splitAll.1, (NameSupply.forTypes "" 0).Spares (s.drawn st) q

/-! ### What every statement keeps -/

/-- Schemes in which the free variables are weak and the quantified ones are not, and a
    supply of weak names. -/
structure Kept (s : Session) : Prop where
  weak : s.weak.stem = "_w"
  env : Keeps s.env

theorem Kept.exec {s : Session} {st : Statement} (hs : Kept s) (hfit : s.TypesFit st) :
    Kept (s.exec st).session := by
  obtain ⟨e, -, hsession⟩ | ⟨r, hr, -, hsession⟩ := exec_cases s st
  · rw [hsession]
    exact ⟨hs.weak, hs.env⟩
  · rw [hsession]
    exact ⟨(weakens_weakening s st r hs.weak).2.1,
      (hs.env.inferred hfit hr).keeps hs.env hs.weak⟩

theorem Reached.kept {s : Session} (h : s.Reached TypesFit) : Kept s :=
  h.invariant (fun _ _ => ⟨rfl, keeps_empty⟩) fun hs hfit => hs.exec hfit

/-! ### One scheme -/

section Scheme

variable {s : Session} {st : Statement} {r : Typing} {x : String} {σ : Ty}

/-- Neither of the two substitutions meets a quantifier of a scheme that is spared. -/
theorem Kept.clears (hs : Kept s) (hfit : s.TypesFit st)
    (hr : inferType (unifyBudget s.unifyFuel) s.env st.term = .ok r) (hx : s.env[x]? = some σ)
    (hσ : s.Spared st σ) :
    r.subst.Clears σ ∧ (s.weakening st r).Clears (r.subst.apply σ) := by
  have hsupplied := hs.env.supplied hfit
  obtain ⟨hforces, hnamed, -⟩ :=
    Infer.typing_named hsupplied (Prod.ext hr rfl) (Int.le_refl (s.drawn st))
  have hstrong : σ.freeVars ≠ [] → ∀ q ∈ σ.splitAll.1, isWeak q = false :=
    fun hne q hq => hs.env.strong q ⟨x, σ, hx, hne, hq⟩
  -- a free variable of the environment is weak, and an issued one is not quantified
  have hnot : σ.freeVars ≠ [] → ∀ q ∈ σ.splitAll.1, ¬ Known s.env (.forTypes "" 0)
      ((Infer.typing (unifyBudget s.unifyFuel) s.env st.term).run (.forTypes "" 0)).2 q := by
    rintro hne q hq (hfree | hissued)
    · have hweak := hs.env.weak q hfree
      simp [hstrong hne q hq] at hweak
    · exact (hσ hne q hq).not_issued (Int.le_refl _) hissued
  refine ⟨hforces.clears hx hnot, ?_⟩
  by_cases hnil : σ.freeVars = []
  · exact .inl (by rw [Subst.apply_eq_self (by simp [hnil]), hnil])
  · refine (weakens_weakening s st r hs.weak).1.clears fun q hq => ?_
    rw [hforces.regular.splitAll_apply (hs.env.prenex hx)] at hq
    refine ⟨fun hmem => hnot hnil q hq ?_, hstrong hnil q hq⟩
    rcases mem_leftFree.mp hmem with hfree | ⟨-, hfree⟩
    · exact (hforces.carries hsupplied q hfree).1
    · exact hnamed.2 q (Infer.mem_freeVars_letScheme hfree)

theorem getElem?_env_assign (hx : s.env[x]? = some σ) (hne : st.binder ≠ some x) :
    (s.assign st r).env[x]? = some ((s.weakening st r).apply (r.subst.apply σ)) := by
  have hold : ((s.env.apply r.subst).apply (s.weakening st r))[x]? =
      some ((s.weakening st r).apply (r.subst.apply σ)) := by
    rw [TypeEnv.getElem?_apply, TypeEnv.getElem?_apply, hx]
    rfl
  rw [env_assign]
  cases hb : st.binder with
  | none => exact hold
  | some y =>
    have hyx : y ≠ x := fun h => hne (h ▸ hb)
    simpa [Std.ExtTreeMap.getElem?_insert, hyx] using hold

/-- **Resolving without capture.**  However a session was reached, the scheme of a name
    that an accepted statement does not bind, if it is spared, becomes the scheme in
    which the free variables are replaced by what inference found for them, made weak;
    free in it are exactly the variables that were put in. -/
theorem exec_scheme {s : Session} (hs : s.Reached TypesFit) {st : Statement}
    (hfit : s.TypesFit st) {o : Outcome} (ho : (s.exec st).result = .ok o) {x : String} {σ : Ty}
    (hx : s.env[x]? = some σ) (hne : st.binder ≠ some x) (hσ : s.Spared st σ) :
    ∃ (r : Typing) (σ' : Ty), inferType (unifyBudget s.unifyFuel) s.env st.term = .ok r ∧
      (s.exec st).session.env[x]? = some σ' ∧
      σ'.nameless = (s.weakening st r).applyNameless (r.subst.applyNameless σ.nameless) ∧
      ∀ u, u ∈ σ'.freeVars ↔
        ∃ v ∈ σ.freeVars, u ∈ ((s.weakening st r).apply (r.subst.resolve v)).freeVars := by
  obtain ⟨e, he, -⟩ | ⟨r, hr, -, hsession⟩ := exec_cases s st
  · rw [he] at ho
    exact absurd ho (by simp)
  · have hkept := hs.kept
    have hregular := (hkept.env.inferred hfit hr).regular
    have hprenex := hkept.env.prenex hx
    have hprenex' := hregular.prenex_apply hprenex
    obtain ⟨hclear, hclear'⟩ := hkept.clears hfit hr hx hσ
    refine ⟨r, (s.weakening st r).apply (r.subst.apply σ), hr, ?_, ?_, fun u => ?_⟩
    · rw [hsession]
      exact getElem?_env_assign hx hne
    · rw [hclear'.nameless_apply hprenex', hclear.nameless_apply hprenex]
    · rw [hclear'.mem_freeVars_apply hprenex']
      simp only [hclear.mem_freeVars_apply hprenex,
        Subst.apply_eq_bind _ (hregular.mono_resolve _), Ty.mem_freeVars_bind (hregular.mono_resolve _)]
      constructor
      · rintro ⟨y, ⟨v, hv, hy⟩, hu⟩
        exact ⟨v, hv, y, hy, hu⟩
      · rintro ⟨v, hv, y, hy, hu⟩
        exact ⟨y, ⟨v, hv, hy⟩, hu⟩

end Scheme

/-! ### A scheme that is spared, and one that is not -/

theorem exec_ok_of_inferType {s : Session} {st : Statement} {r : Typing}
    (hr : inferType (unifyBudget s.unifyFuel) s.env st.term = .ok r) :
    ∃ o, (s.exec st).result = .ok o := by
  rw [exec, hr]
  exact ⟨_, rfl⟩

/-- The scheme of `lateReader` quantifies `T3`, and only `T0`, `T1` and `T2` are issued
    when its weak variable is found to be a type of functions. -/
theorem exec_scheme_lateReader :
    let σ : Ty := .all "T3" (.arrow (.var "T3") (.list (.var "_w0")))
    withLateReader.Reached TypesFit ∧ withLateReader.TypesFit storeIdentity ∧
      withLateReader.env["f"]? = some σ ∧ storeIdentity.binder ≠ some "f" ∧
      withLateReader.Spared storeIdentity σ ∧
      ∃ (o : Outcome) (r : Typing) (σ' : Ty), (withLateReader.exec storeIdentity).result = .ok o ∧
        inferType (unifyBudget withLateReader.unifyFuel) withLateReader.env storeIdentity.term =
          .ok r ∧
        (withLateReader.exec storeIdentity).session.env["f"]? = some σ' ∧
        σ'.nameless = (withLateReader.weakening storeIdentity r).applyNameless
          (r.subst.applyNameless σ.nameless) := by
  intro σ
  have hcell : withCell.Reached TypesFit :=
    exec_emptyCell ▸ (Reached.new 0 0).exec admits_emptyCell.fits.types
  have hreader : withLateReader.Reached TypesFit :=
    exec_lateReader ▸ hcell.exec admits_lateReader.fits.types
  have hrun : (fun p : Except TypeError Typing × NameSupply => (p.1.toOption.isSome, p.2.count))
      ((Infer.typing (unifyBudget withLateReader.unifyFuel) withLateReader.env
        storeIdentity.term).run (.forTypes "" 0)) = (true, 3) := by cbv
  have hdrawn : withLateReader.drawn storeIdentity = 3 := congrArg Prod.snd hrun
  have hfit : withLateReader.TypesFit storeIdentity := by
    rw [TypesFit, hdrawn]
    decide
  have hspared : withLateReader.Spared storeIdentity σ := by
    intro _ q hq n hn hlt
    rw [hdrawn] at hlt
    -- the one quantified name would be issued as the fourth, and three are drawn
    obtain rfl : q = "T3" := by simpa [σ, Ty.splitAll] using hq
    change 0 ≤ n at hn
    interval_cases n <;> decide
  have hf : withLateReader.env["f"]? = some σ := by cbv
  have hne : storeIdentity.binder ≠ some "f" := by decide
  refine ⟨hreader, hfit, hf, hne, hspared, ?_⟩
  cases hr : inferType (unifyBudget withLateReader.unifyFuel) withLateReader.env
      storeIdentity.term with
  | error e =>
    have hok : (inferType (unifyBudget withLateReader.unifyFuel) withLateReader.env
      storeIdentity.term).toOption.isSome = true := congrArg Prod.fst hrun
    simp [hr, Except.toOption] at hok
  | ok r =>
    obtain ⟨o, ho⟩ := exec_ok_of_inferType hr
    obtain ⟨r', σ', hr', hσ', hnameless, -⟩ := exec_scheme hreader hfit ho hf hne hspared
    exact ⟨o, r', σ', ho, hr.symm.trans hr', hσ', hnameless⟩

/-- A scheme that is not spared may capture what is put into it: the quantifier of
    `reader` binds `T1`, and this is issued for `storeIdentity`. -/
theorem exec_captures :
    ∃ (s : Session) (st : Statement) (o : Outcome) (r : Typing) (x : String) (σ σ' : Ty),
      s.Reached WellPosed ∧ s.WellPosed st ∧ (s.exec st).result = .ok o ∧
      s.env[x]? = some σ ∧ st.binder ≠ some x ∧
      inferType (unifyBudget s.unifyFuel) s.env st.term = .ok r ∧
      (s.exec st).session.env[x]? = some σ' ∧
      σ'.nameless ≠ (s.weakening st r).applyNameless (r.subst.applyNameless σ.nameless) ∧
      ∃ v ∈ σ.freeVars, ∃ u ∈ ((s.weakening st r).apply (r.subst.resolve v)).freeVars,
        u ∉ σ'.freeVars := by
  have hcell : withCell.Reached WellPosed :=
    exec_emptyCell ▸ (Reached.new 0 0).exec admits_emptyCell.toWellPosed
  have hreader : withReader.Reached WellPosed :=
    exec_reader ▸ hcell.exec admits_reader.toWellPosed
  -- what the weak variable stands for, and what the scheme should become
  have hput : (inferType (unifyBudget withReader.unifyFuel) withReader.env
      storeIdentity.term).toOption.map (fun r => (
        (withReader.weakening storeIdentity r).apply (r.subst.resolve "_w0"),
        (withReader.weakening storeIdentity r).applyNameless (r.subst.applyNameless
          (Ty.all "T1" (.arrow (.var "T1") (.list (.var "_w0")))).nameless))) =
      some (.arrow (.var "_w1") (.var "_w1"), .all (.arrow (.var (.bound 0))
        (.list (.arrow (.var (.free "_w1")) (.var (.free "_w1")))))) := by cbv
  cases hr : inferType (unifyBudget withReader.unifyFuel) withReader.env storeIdentity.term with
  | error e => simp [hr, Except.toOption] at hput
  | ok r =>
    rw [hr] at hput
    obtain ⟨hput, hright⟩ := Prod.mk.inj (Option.some.inj hput)
    obtain ⟨o, ho⟩ := exec_ok_of_inferType hr
    refine ⟨withReader, storeIdentity, o, r, "f",
      .all "T1" (.arrow (.var "T1") (.list (.var "_w0"))),
      .all "T1" (.arrow (.var "T1") (.list (.arrow (.var "T1") (.var "T1")))),
      hreader, wellPosed_storeIdentity, ho, by cbv, by decide, hr, ?_, ?_, "_w0", by decide, "_w1",
      by rw [hput]; decide, by decide⟩
    · rw [exec_storeIdentity]
      cbv
    · exact fun heq => absurd (heq.trans hright) (by decide)

end MiniML.Session
