/-
  MiniML/Proofs/Session/Provenance.lean
  =====================================
  **Where the type variables of a session come from** — whatever statements were
  executed, captures included: what is free in the environment was issued as a weak
  name since the session was new or reset, and what is quantified was drawn by an
  inference.

  A statement brings in the names that its inference knows, which are free in the
  environment or drawn, and the weak names that it issues.  Of the drawn ones none is
  left free, and none that was left free is quantified (`Inferred.weak`).
-/
import MiniML.Proofs.Session.Capture

namespace MiniML.Session

/-- The supply of weak names of a new session. -/
def firstWeak : NameSupply := ⟨"_w", 0⟩

/-! ### The names that weakening issues -/

theorem before_weaken (names : List String) (w : Subst) (supply : NameSupply) :
    supply.Before (weaken names w supply).2 := by
  induction names generalizing w supply with
  | nil => exact .refl supply
  | cons x names ih =>
    rw [weaken]
    split
    · exact ih w supply
    · exact (NameSupply.before_fresh supply).trans (ih _ _)

theorem issued_of_weaken {names : List String} {w : Subst} {supply : NameSupply} {v : String}
    {t : Ty} (h : (weaken names w supply).1[v]? = some t) :
    w[v]? = some t ∨ ∃ y, t = .var y ∧ supply.Issued (weaken names w supply).2 y := by
  induction names generalizing w supply with
  | nil => exact .inl h
  | cons x names ih =>
    rw [weaken] at h ⊢
    split at h
    · rename_i hskip
      rw [if_pos hskip]
      exact ih h
    · rename_i hskip
      rw [if_neg hskip]
      obtain hold | ⟨y, rfl, hy⟩ := ih h
      · rcases Subst.getElem?_insert_some hold with ⟨-, rfl⟩ | ⟨-, hold⟩
        · exact .inr ⟨_, rfl, (NameSupply.issued_fresh supply).later (before_weaken _ _ _)⟩
        · exact .inl hold
      · exact .inr ⟨y, rfl, hy.earlier (NameSupply.before_fresh supply)⟩

theorem before_assign (s : Session) (st : Statement) (r : Typing) :
    s.weak.Before (s.assign st r).weak := by
  rw [weak_assign]
  exact before_weaken _ _ _

theorem issued_of_weakening {s : Session} {st : Statement} {r : Typing} {v : String} {t : Ty}
    (h : (s.weakening st r)[v]? = some t) :
    ∃ y, t = .var y ∧ s.weak.Issued (s.assign st r).weak y := by
  rw [weak_assign]
  exact (issued_of_weaken h).resolve_left (by simp)

/-! ### What holds between two statements -/

/-- The scheme quantifies numbered type variables only. -/
def NumbersQuantifiers (σ : Ty) : Prop := ∀ q ∈ σ.splitAll.1, ∃ n : Nat, q = "T" ++ toString n

/-- Every name in the environment has a known origin. -/
structure Traced (s : Session) : Prop extends Kept s where
  forward : firstWeak.Before s.weak
  issued : ∀ v ∈ s.env.freeTypeVars, firstWeak.Issued s.weak v
  numbered : ∀ {x : String} {σ : Ty}, s.env[x]? = some σ → NumbersQuantifiers σ
  names : ∀ x, x ∈ s.env ↔ x ∈ s.bindings.map Prod.fst

theorem traced_new (maxSteps unifyFuel : Int64) : Traced { maxSteps, unifyFuel } where
  weak := rfl
  env := keeps_empty
  forward := .refl firstWeak
  issued v hv := by
    obtain ⟨x, σ, hx, -⟩ := TypeEnv.mem_freeTypeVars.mp hv
    exact absurd hx (by simp)
  numbered h := absurd h (by simp)
  names x := by simp

theorem mem_apply {env : TypeEnv} {θ : Subst} {x : String} : x ∈ env.apply θ ↔ x ∈ env := by
  rw [Std.ExtTreeMap.mem_iff_isSome_getElem?, Std.ExtTreeMap.mem_iff_isSome_getElem?,
    TypeEnv.getElem?_apply, Option.isSome_map]

theorem exists_number_of_issued {s : NameSupply} {q : String}
    (h : (NameSupply.forTypes "" 0).Issued s q) (hl : s.count ≤ 2 ^ 63) :
    ∃ n : Nat, q = "T" ++ toString n := by
  obtain ⟨n, hn, hn', rfl⟩ := h
  change 0 ≤ n at hn
  refine ⟨n.toNat, ?_⟩
  rw [NameSupply.nameAt, decimal_ofInt hn (by omega)]
  rfl

section Statement

variable {s : Session} {st : Statement} {r : Typing}

theorem mem_env_assign {x : String} :
    x ∈ (s.assign st r).env ↔ st.binder = some x ∨ x ∈ s.env := by
  rw [env_assign]
  cases st.binder with
  | none => simp [mem_apply]
  | some y => simp [mem_apply]

/-- What a statement's inference knows is weak only if it was issued before. -/
theorem Traced.issued_of_known (hs : Traced s) {s' : NameSupply} {v : String}
    (hv : Known s.env (.forTypes "" 0) s' v) (hweak : isWeak v = true) :
    firstWeak.Issued s.weak v := by
  obtain hfree | hdrawn := hv
  · exact hs.issued v hfree
  · rw [isWeak_of_issued hdrawn] at hweak
    exact absurd hweak (by simp)

/-- The weak variables that are free once the statement's variables have been made weak
    were issued before, or are issued by it. -/
theorem Traced.issued_of_mem (hs : Traced s) {σ : Ty} (hσ : σ.Prenex)
    (hold : ∀ v ∈ σ.freeVars, isWeak v = true → firstWeak.Issued s.weak v) {u : String}
    (hu : u ∈ ((s.weakening st r).apply σ).freeVars) (hweak : isWeak u = true) :
    firstWeak.Issued (s.assign st r).weak u := by
  have hw := (weakens_weakening s st r hs.weak).1
  have hwithin : (s.weakening st r).Within
      fun v => isWeak v = true → firstWeak.Issued (s.assign st r).weak v := by
    intro v t ht
    obtain ⟨y, rfl, hy⟩ := issued_of_weakening ht
    refine ⟨fun hv => ?_, fun z hz _ => ?_⟩
    · rw [hw.not_bound hv] at ht
      cases ht
    · rw [Ty.mem_freeVars_var.mp hz]
      exact hy.earlier hs.forward
  refine (hw.regular.mem_freeVars_apply hσ hwithin (fun v hv hvweak => ?_) hu).2 hweak
  exact (hold v hv hvweak).later (before_assign s st r)

/-- An entry after a statement is one from before it, or the scheme of the statement. -/
theorem entry_cases {x : String} {σ : Ty} (hx : (s.assign st r).env[x]? = some σ) :
    (∃ ρ, s.env[x]? = some ρ ∧ σ = (s.weakening st r).apply (r.subst.apply ρ)) ∨
      σ = (s.weakening st r).apply (s.schemeOf st r) := by
  have hold : ((s.env.apply r.subst).apply (s.weakening st r))[x]? = some σ →
      ∃ ρ, s.env[x]? = some ρ ∧ σ = (s.weakening st r).apply (r.subst.apply ρ) := by
    intro hx
    obtain ⟨ρ', hρ', rfl⟩ := TypeEnv.getElem?_apply_some hx
    obtain ⟨ρ, hρ, rfl⟩ := TypeEnv.getElem?_apply_some hρ'
    exact ⟨ρ, hρ, rfl⟩
  rw [env_assign] at hx
  cases hb : st.binder with
  | none =>
    rw [hb] at hx
    exact .inl (hold hx)
  | some y =>
    rw [hb] at hx
    rcases TypeEnv.getElem?_insert_some hx with ⟨-, rfl⟩ | ⟨-, hx⟩
    · exact .inr rfl
    · exact .inl (hold hx)

theorem Traced.issued_assign (hs : Traced s) (hfit : s.TypesFit st)
    (hr : inferType (unifyBudget s.unifyFuel) s.env st.term = .ok r) :
    ∀ v ∈ (s.assign st r).env.freeTypeVars, firstWeak.Issued (s.assign st r).weak v := by
  have hsupplied := hs.env.supplied hfit
  obtain ⟨hforces, hnamed, -⟩ :=
    Infer.typing_named hsupplied (Prod.ext hr rfl) (Int.le_refl (s.drawn st))
  have hkeeps : Keeps (s.assign st r).env := (hs.env.inferred hfit hr).keeps hs.env hs.weak
  intro u hu
  obtain ⟨x, σ, hx, hmem⟩ := TypeEnv.mem_freeTypeVars.mp hu
  obtain ⟨ρ, hρ, rfl⟩ | rfl := entry_cases hx
  · refine hs.issued_of_mem (hforces.regular.prenex_apply (hs.env.prenex hρ)) (fun v hv => ?_)
      hmem (hkeeps.weak u hu)
    have hget : (s.env.apply r.subst)[x]? = some (r.subst.apply ρ) := by
      rw [TypeEnv.getElem?_apply, hρ]
      rfl
    exact hs.issued_of_known (hforces.carries hsupplied v (TypeEnv.freeVars_subset hget v hv)).1
  · refine hs.issued_of_mem (Infer.prenex_letScheme hnamed.1) (fun v hv => ?_) hmem
      (hkeeps.weak u hu)
    exact hs.issued_of_known (hnamed.2 v (Infer.mem_freeVars_letScheme hv))

/-- A statement adds no quantifiers to the schemes that are there, and quantifies in its
    own what its inference drew. -/
theorem Traced.numbered_assign (hs : Traced s) (hfit : s.TypesFit st)
    (hr : inferType (unifyBudget s.unifyFuel) s.env st.term = .ok r) {x : String} {σ : Ty}
    (hx : (s.assign st r).env[x]? = some σ) : NumbersQuantifiers σ := by
  have hinferred := hs.env.inferred hfit hr
  have hw := (weakens_weakening s st r hs.weak).1.regular
  intro q hq
  obtain ⟨ρ, hρ, rfl⟩ | rfl := entry_cases hx
  · have hprenex := hs.env.prenex hρ
    rw [hw.splitAll_apply (hinferred.regular.prenex_apply hprenex),
      hinferred.regular.splitAll_apply hprenex] at hq
    exact hs.numbered hρ q hq
  · have hprenex : (s.schemeOf st r).Prenex := Infer.prenex_letScheme hinferred.mono
    rw [hw.splitAll_apply hprenex] at hq
    obtain ⟨hmem, hnot⟩ := Infer.mem_quantified_letScheme hinferred.mono hq
    obtain ⟨-, hnamed, -⟩ := Infer.typing_named (hs.env.supplied hfit) (Prod.ext hr rfl)
      (Int.le_refl (s.drawn st))
    obtain hfree | hdrawn := hnamed.2 q hmem
    · have hstrong := hinferred.weak q hmem hnot
      rw [hs.env.weak q hfree] at hstrong
      exact absurd hstrong (by simp)
    · exact exists_number_of_issued hdrawn hfit

theorem Traced.exec (hs : Traced s) (hfit : s.TypesFit st) : Traced (s.exec st).session := by
  have hkept := hs.toKept.exec hfit
  obtain ⟨e, -, hsession⟩ | ⟨r, hr, -, hsession⟩ := exec_cases s st
  · rw [hsession] at hkept ⊢
    exact ⟨hkept, hs.forward, hs.issued, hs.numbered, hs.names⟩
  · rw [hsession] at hkept ⊢
    refine ⟨hkept, hs.forward.trans (before_assign s st r), hs.issued_assign hfit hr,
      hs.numbered_assign hfit hr, fun x => ?_⟩
    rw [mem_env_assign, hs.names x]
    cases st.binder with
    | none => simp
    | some y => simp [eq_comm]

end Statement

theorem Reached.traced {s : Session} (h : s.Reached TypesFit) : Traced s :=
  h.invariant traced_new fun hs hfit => hs.exec hfit

/-- **The weak variables of a session.**  However a session was reached, captures
    included: its types are schemes in which the free variables are weak names that were
    issued since it was new or reset, and the quantified ones are numbered; it has a type
    for the names that have a value; and no name that is drawn for the next statement is
    free in a type. -/
theorem Reached.env_wellFormed {s : Session} (h : s.Reached TypesFit) :
    (∀ {x : String} {σ : Ty}, s.env[x]? = some σ → σ.Prenex ∧
      (∀ v ∈ σ.freeVars, firstWeak.Issued s.weak v) ∧
      ∀ q ∈ σ.splitAll.1, ∃ n : Nat, q = "T" ++ toString n) ∧
    (∀ x, x ∈ s.env ↔ x ∈ s.bindings.map Prod.fst) ∧
    ∀ v ∈ s.env.freeTypeVars, ∀ n, v ≠ (NameSupply.forTypes "" 0).nameAt n := by
  have ht := h.traced
  refine ⟨fun hx => ⟨ht.env.prenex hx, fun v hv => ?_, ht.numbered hx⟩, ht.names, ?_⟩
  · exact ht.issued v (TypeEnv.freeVars_subset hx v hv)
  · rintro v hv n rfl
    have hhead := head_of_isWeak (ht.env.weak _ hv)
    rw [NameSupply.nameAt, String.toList_append] at hhead
    exact absurd hhead (by simp [NameSupply.forTypes])

/-- `let r = ref nil` and `let f = λx. !r`. -/
theorem Reached.env_wellFormed_reader :
    withReader.Reached TypesFit ∧
      withReader.env["f"]? = some (.all "T1" (.arrow (.var "T1") (.list (.var "_w0")))) ∧
      firstWeak.Issued withReader.weak "_w0" ∧ (∃ n : Nat, "T1" = "T" ++ toString n) ∧
      "f" ∈ withReader.env := by
  have hcell : withCell.Reached TypesFit :=
    exec_emptyCell ▸ (Reached.new 0 0).exec admits_emptyCell.fits.types
  have hreader : withReader.Reached TypesFit :=
    exec_reader ▸ hcell.exec admits_reader.fits.types
  have hf : withReader.env["f"]? =
      some (.all "T1" (.arrow (.var "T1") (.list (.var "_w0")))) := by cbv
  obtain ⟨hentry, hnames, -⟩ := hreader.env_wellFormed
  obtain ⟨-, hfree, hquantified⟩ := hentry hf
  refine ⟨hreader, hf, hfree "_w0" (by decide), hquantified "T1" (by decide), ?_⟩
  exact (hnames "f").mpr (by decide)

end MiniML.Session
