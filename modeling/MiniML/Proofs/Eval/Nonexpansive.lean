/-
  MiniML/Proofs/Eval/Nonexpansive.lean
  ====================================
  **Non-expansive terms settle** — a term in which neither an application nor a `ref`
  stands outside the abstractions is evaluated in at most as many steps as it has nodes,
  and leaves the set of regions as it is.  This is what makes it safe to generalise its
  type.

  A `let` copies its value and a read copies the content of a region, so neither the
  size of a term nor the number of its abstractions decreases.  What decreases is its
  `work`, which counts nothing below an abstraction: a value has none, wherever it is
  copied to.  That reads bring in values and nothing else is an invariant of the store
  (`Store.Sealed`).
-/
import MiniML.Proofs.Eval.Regions

namespace MiniML

/-! ### Work -/

namespace Term

/-- The number of forms outside the abstractions that are no values by themselves.
    Each branch of a conditional counts. -/
def work : Term → Nat
  | .var _ | .abs _ _ | .int _ | .nil | .unit | .region _ => 0
  | .cons h t => h.work + t.work
  | .fix f => f.work
  | .app l r | .letIn _ l r | .add l r | .sub l r | .assign l r => l.work + r.work + 1
  | .ifZero c t e | .ifEmpty c t e => c.work + t.work + e.work + 1
  | .head e | .tail e | .mkRef e | .deref e => e.work + 1

/-- The values are the terms without work. -/
theorem work_eq_zero_iff {t : Term} : t.work = 0 ↔ t.isValue = true := by
  induction t with
  | var | abs | int | nil | unit | region => simp [work, isValue]
  | cons h t ih ih' => simp [work, isValue, ih, ih']
  | fix f ih => exact ih
  | app | letIn | head | tail | add | sub | ifZero | ifEmpty | mkRef | deref | assign =>
    simp [work, isValue]

theorem work_le_size (t : Term) : t.work ≤ t.size := by
  induction t <;> simp only [work, size] <;> omega

section Copies

variable {x : String} {v t : Term}

theorem work_subst (hv : v.isValue = true) : (subst x v t).work = t.work := by
  induction t with
  | var y =>
    rw [subst]
    split
    · exact work_eq_zero_iff.mpr hv
    · rfl
  | int | nil | unit | region => rfl
  | abs y b => rw [subst_abs, work, work]
  | letIn y a b ih ih' =>
    rw [subst, work, work, ih]
    split
    · rfl
    · rw [ih']
  | head b ih | tail b ih | fix b ih | mkRef b ih | deref b ih => simp only [subst, work, ih]
  | app b c ih ih' | cons b c ih ih' | add b c ih ih' | sub b c ih ih' | assign b c ih ih' =>
    simp only [subst, work, ih, ih']
  | ifZero b c d ih ih' ih'' | ifEmpty b c d ih ih' ih'' => simp only [subst, work, ih, ih', ih'']

theorem isExpansive_subst (hv : v.isExpansive = false) :
    (subst x v t).isExpansive = t.isExpansive := by
  induction t with
  | var y =>
    rw [subst]
    split
    · exact hv
    · rfl
  | int | nil | unit | region | app | mkRef => rfl
  | abs y b => rw [subst_abs, isExpansive, isExpansive]
  | letIn y a b ih ih' =>
    rw [subst, isExpansive, isExpansive, ih]
    split
    · rfl
    · rw [ih']
  | head b ih | tail b ih | fix b ih | deref b ih => simp only [subst, isExpansive, ih]
  | cons b c ih ih' | add b c ih ih' | sub b c ih ih' | assign b c ih ih' =>
    simp only [subst, isExpansive, ih, ih']
  | ifZero b c d ih ih' ih'' | ifEmpty b c d ih ih' ih'' =>
    simp only [subst, isExpansive, ih, ih', ih'']

end Copies

section Renaming

variable {t : Term} {ρ : Renaming} {s : NameSupply}

theorem work_alphaConvert : (t.alphaConvert ρ s).1.work = t.work := by
  induction t generalizing ρ s with
  | var | abs | int | nil | unit | region => rfl
  | head b ih | tail b ih | fix b ih | mkRef b ih | deref b ih => simp only [alphaConvert, work, ih]
  | letIn _ b c ih ih' | app b c ih ih' | cons b c ih ih' | add b c ih ih' | sub b c ih ih'
  | assign b c ih ih' => simp only [alphaConvert, work, ih, ih']
  | ifZero b c d ih ih' ih'' | ifEmpty b c d ih ih' ih'' =>
    simp only [alphaConvert, work, ih, ih', ih'']

theorem isExpansive_alphaConvert : (t.alphaConvert ρ s).1.isExpansive = t.isExpansive := by
  induction t generalizing ρ s with
  | var | abs | int | nil | unit | region | app | mkRef => rfl
  | head b ih | tail b ih | fix b ih | deref b ih => simp only [alphaConvert, isExpansive, ih]
  | letIn _ b c ih ih' | cons b c ih ih' | add b c ih ih' | sub b c ih ih' | assign b c ih ih' =>
    simp only [alphaConvert, isExpansive, ih, ih']
  | ifZero b c d ih ih' ih'' | ifEmpty b c d ih ih' ih'' =>
    simp only [alphaConvert, isExpansive, ih, ih', ih'']

end Renaming

section Frames

variable {K : Frame} {t u : Term}

theorem work_fill_lt (h : t.work < u.work) : (K.fill t).work < (K.fill u).work := by
  cases K <;> simp only [Frame.fill, work] <;> omega

theorem isExpansive_of_fill (h : (K.fill t).isExpansive = false) : t.isExpansive = false := by
  cases K <;> simp only [Frame.fill, isExpansive, Bool.or_eq_false_iff] at h <;> grind

theorem isExpansive_refill (h : (K.fill t).isExpansive = false) (hu : u.isExpansive = false) :
    (K.fill u).isExpansive = false := by
  cases K <;> simp only [Frame.fill, isExpansive, Bool.or_eq_false_iff] at h ⊢ <;> grind

end Frames

end Term

/-! ### Sealed stores -/

/-- The contents are values, the next id is above all ids, and every region that a content
    mentions exists. -/
structure Store.Sealed (s : Store) : Prop where
  isValue : ∀ {i v}, s.get? i = some v → v.isValue = true
  below : ∀ {i}, s.Knows i → i < s.next
  mentioned : ∀ {i v}, s.get? i = some v → v.AllRegions s.Knows

/-- A store that terms have left behind, each of which mentioned only regions of the store
    that it met (`trail_wellFormed`), is sealed. -/
theorem Store.WellFormed.sealed {s : Store} (hs : s.WellFormed) : s.Sealed where
  isValue := hs.isValue
  below h := Int64.lt_iff_toInt_lt.mpr ((hs.knows_iff _).mp h).2
  mentioned := hs.mentioned

/-- The two stores have the same regions, which may differ in content, and the same next
    id. -/
def Store.SameRegions (s s' : Store) : Prop := s'.next = s.next ∧ ∀ i, s'.Knows i ↔ s.Knows i

namespace Store

variable {s s' s'' : Store}

theorem SameRegions.refl (s : Store) : s.SameRegions s := ⟨rfl, fun _ => .rfl⟩

theorem SameRegions.trans (h : s.SameRegions s') (h' : s'.SameRegions s'') : s.SameRegions s'' :=
  ⟨h'.1.trans h.1, fun i => (h'.2 i).trans (h.2 i)⟩

theorem SameRegions.allRegions (h : s.SameRegions s') {t : Term} (ht : t.AllRegions s.Knows) :
    t.AllRegions s'.Knows :=
  ht.imp fun i => (h.2 i).mpr

/-- A write to a region that exists. -/
theorem Sealed.assign (hs : s.Sealed) {i : Int64} {v : Term} (hi : s.Knows i)
    (hv : v.isValue = true) (hvs : v.AllRegions s.Knows) :
    (s.set i v).Sealed ∧ s.SameRegions (s.set i v) := by
  have hnext : (s.set i v).next = s.next :=
    next_set_of_lt (Int64.lt_iff_toInt_lt.mp (hs.below hi)) v
  have hsame : s.SameRegions (s.set i v) := by
    refine ⟨hnext, fun j => ?_⟩
    rw [knows_set, or_iff_right_of_imp]
    rintro rfl
    exact hi
  refine ⟨⟨forall_set hs.isValue hv, fun {j} hj => ?_, fun hu => ?_⟩, hsame⟩
  · rw [hnext]
    exact hs.below ((hsame.2 j).mp hj)
  · exact hsame.allRegions (forall_set hs.mentioned hvs hu)

end Store

/-! ### Steps -/

/-- A configuration that will not allocate: its term is non-expansive, and all that it can
    read are values. -/
structure Config.Quiet (c : Config) : Prop where
  store : c.store.Sealed
  known : c.term.AllRegions c.store.Knows
  nonexpansive : c.term.isExpansive = false

theorem Contracts.quiet {s : Store} {t : Term} {c : Config} (h : Contracts s t c)
    (ht : (Config.mk t s).Quiet) : c.Quiet ∧ s.SameRegions c.store ∧ c.term.work < t.work := by
  obtain ⟨hs, hknown, hquiet⟩ := ht
  dsimp only at hs hknown hquiet
  cases h with
  -- applications and `ref`, the only forms that would copy what is not a value or allocate
  | beta | unfold | mkRef => cases hquiet
  | letIn x b hv =>
    have hexp := Term.isExpansive_eq_false_of_isValue hv
    rw [Term.isExpansive, hexp, Bool.false_or] at hquiet
    refine ⟨⟨hs, .subst hknown.1 hknown.2, ?_⟩, .refl s, ?_⟩
    · exact (Term.isExpansive_subst hexp).trans hquiet
    · dsimp only
      rw [Term.work_subst hv, Term.work]
      omega
  | head u w =>
    simp only [Term.isExpansive, Bool.or_eq_false_iff] at hquiet
    exact ⟨⟨hs, hknown.1, hquiet.1⟩, .refl s, by simp only [Term.work]; omega⟩
  | tail u w =>
    simp only [Term.isExpansive, Bool.or_eq_false_iff] at hquiet
    exact ⟨⟨hs, hknown.2, hquiet.2⟩, .refl s, by simp only [Term.work]; omega⟩
  | add m n | sub m n => exact ⟨⟨hs, trivial, rfl⟩, .refl s, Nat.zero_lt_one⟩
  | ifZero n u w =>
    simp only [Term.isExpansive, Bool.or_eq_false_iff] at hquiet
    dsimp only
    split
    · exact ⟨⟨hs, hknown.2.1, hquiet.1.2⟩, .refl s, by simp only [Term.work]; omega⟩
    · exact ⟨⟨hs, hknown.2.2, hquiet.2⟩, .refl s, by simp only [Term.work]; omega⟩
  | ifNil u w =>
    simp only [Term.isExpansive, Bool.or_eq_false_iff] at hquiet
    exact ⟨⟨hs, hknown.2.1, hquiet.1.2⟩, .refl s, by simp only [Term.work]; omega⟩
  | ifCons a l u w =>
    simp only [Term.isExpansive, Bool.or_eq_false_iff] at hquiet
    exact ⟨⟨hs, hknown.2.2, hquiet.2⟩, .refl s, by simp only [Term.work]; omega⟩
  | deref hi =>
    have hv := hs.isValue hi
    refine ⟨⟨hs, hs.mentioned hi, Term.isExpansive_eq_false_of_isValue hv⟩, .refl s, ?_⟩
    dsimp only
    rw [Term.work_eq_zero_iff.mpr hv]
    exact Nat.zero_lt_one
  | assign i hv =>
    obtain ⟨hs', hsame⟩ := hs.assign hknown.1 hv hknown.2
    exact ⟨⟨hs', trivial, rfl⟩, hsame, Nat.succ_pos _⟩

theorem Reduces.quiet {s : Store} {t : Term} {c : Config} (h : Reduces s t c)
    (ht : (Config.mk t s).Quiet) : c.Quiet ∧ s.SameRegions c.store ∧ c.term.work < t.work := by
  induction h with
  | contract h => exact h.quiet ht
  | inside K _ ih =>
    -- the frame is as non-expansive as before, and its own work stays
    obtain ⟨hs, hknown, hquiet⟩ := ht
    obtain ⟨hd, hsame, hlt⟩ := ih ⟨hs, hknown.of_fill, Term.isExpansive_of_fill hquiet⟩
    refine ⟨⟨hd.store, (hsame.allRegions hknown).refill hd.known, ?_⟩, hsame,
      Term.work_fill_lt hlt⟩
    exact Term.isExpansive_refill hquiet hd.nonexpansive

/-- **A step takes work away.** -/
theorem Config.Quiet.step {c d : Config} (hc : c.Quiet) (h : c.step? = some d) :
    d.Quiet ∧ c.store.SameRegions d.store ∧ d.term.work < c.term.work :=
  (Reduces.of_step h).quiet hc

/-! ### Runs -/

/-- What a run keeps, and what is left of the work at its end. -/
theorem Chain.quiet {c : Config} {cs : List Config} (h : Chain (c :: cs)) (hc : c.Quiet) :
    (∀ d ∈ c :: cs, d.Quiet ∧ c.store.SameRegions d.store) ∧
      ∀ e, (c :: cs).getLast? = some e → cs.length + e.term.work ≤ c.term.work := by
  induction cs generalizing c with
  | nil =>
    refine ⟨fun d hd => ?_, ?_⟩
    · rw [List.mem_singleton.mp hd]
      exact ⟨hc, .refl _⟩
    · rintro e ⟨⟩
      exact (Nat.zero_add _).le
  | cons d cs ih =>
    obtain ⟨hstep, hrest⟩ := List.isChain_cons_cons.mp h
    obtain ⟨hd, hsame, hlt⟩ := hc.step hstep
    obtain ⟨hall, hlast⟩ := ih hrest hd
    refine ⟨List.forall_mem_cons.mpr ⟨⟨hc, .refl _⟩, fun e he => ?_⟩, fun e he => ?_⟩
    · exact ⟨(hall e he).1, hsame.trans (hall e he).2⟩
    · rw [List.getLast?_cons_cons] at he
      have := hlast e he
      rw [List.length_cons]
      omega

/-- **Non-expansive terms settle.**  Let a term be non-expansive, let the contents of the
    store be values and its next id above all its ids, and let every region that the term or
    a content mentions exist.  Then in every configuration of the evaluation the term is
    non-expansive and the regions and the next id are those of the store at the start.  It
    takes at most as many steps as the term has nodes, and with a bound of that many or more
    it does not end because of the bound. -/
theorem nonexpansive_settles {t : Term} {s : Store} (hs : s.Sealed)
    (hknown : t.AllRegions s.Knows) (hquiet : t.isExpansive = false) (maxSteps : Int64) :
    (∀ c ∈ configurations t s maxSteps,
      c.term.isExpansive = false ∧ c.store.next = s.next ∧ ∀ i, c.store.Knows i ↔ s.Knows i) ∧
    (eval t s maxSteps).steps ≤ t.size ∧
    ((t.size : Int) ≤ maxSteps.toInt → (eval t s maxSteps).status ≠ .outOfFuel) := by
  obtain ⟨cs, hcs, hchain, hlast, hsteps⟩ := chain_configurations t s maxSteps
  have hstart : (Run.start t s).Quiet :=
    ⟨hs, Term.allRegions_alphaConvert.mpr hknown, Term.isExpansive_alphaConvert.trans hquiet⟩
  have hwork : (Run.start t s).term.work ≤ t.size :=
    Term.work_alphaConvert.trans_le t.work_le_size
  obtain ⟨hall, hleft⟩ := hchain.quiet hstart
  have hbudget := hleft _ hlast
  refine ⟨fun c hc => ?_, by omega, fun hadmits hfuel => ?_⟩
  · obtain ⟨hc, hsame⟩ := hall c (hcs ▸ hc)
    exact ⟨hc.nonexpansive, hsame⟩
  · -- at the bound there is work left, but the steps before it have used up all of it
    have hpos : 0 < maxSteps := by
      have := t.size_pos
      rw [Int64.lt_iff_toInt_lt, Int64.toInt_zero]
      omega
    have hbound := stepBound_of_pos hpos
    obtain ⟨-, -, -, -, -, hended, -⟩ := eval_iterates (fun _ _ _ => ()) () t s maxSteps
    obtain ⟨hfull, d, hd, -⟩ := hended.mp hfuel
    have hlt := ((hall _ (List.mem_of_getLast? hlast)).1.step hd).2.2
    change (eval t s maxSteps).steps = stepBound maxSteps at hfull
    omega

/-- A read through two cells brings in an abstraction whose body would allocate.  It is
    copied three times, so that the term grows from 14 nodes to 22, and two copies are
    written back to the cell that it came from. -/
theorem nonexpansive_settles_copies :
    let f : Term := .abs "z" (.app (.var "z") (.mkRef (.var "z")))
    let s := ((Store.empty.alloc f).2.alloc (.region 0)).2
    let t : Term := .letIn "x" (.deref (.deref (.region 1)))
      (.ifEmpty (.cons (.var "x") .nil) .nil (.assign (.region 0) (.cons (.var "x") (.var "x"))))
    t.size = 14 ∧ (configurations t s 14).map (·.term.size) = [14, 13, 16, 22, 13, 1] ∧
      (∀ c ∈ configurations t s 14, c.term.isExpansive = false ∧ c.store.next = s.next ∧
        ∀ i, c.store.Knows i ↔ s.Knows i) ∧
      ∀ m : Int64, 14 ≤ m.toInt → (eval t s m).steps ≤ 14 ∧ (eval t s m).status ≠ .outOfFuel := by
  intro f s t
  have hfirst : (Store.empty.alloc f).2.WellFormed :=
    Store.wellFormed_empty.alloc rfl (by simp [f, Term.AllRegions]) (by decide)
  have hzero : (Store.empty.alloc f).2.Knows 0 := Store.knows_set.mpr (.inl rfl)
  have hs : s.WellFormed := hfirst.alloc rfl hzero (by decide)
  have hknown : t.AllRegions s.Knows :=
    ⟨Store.knows_set.mpr (.inl rfl), ⟨trivial, trivial⟩, trivial,
      Store.knows_mono_set _ _ _ hzero, trivial, trivial⟩
  have hsettles := nonexpansive_settles hs.sealed hknown rfl
  exact ⟨rfl, by cbv, (hsettles 14).1, fun m hm => (hsettles m).2.imp id fun h => h hm⟩

end MiniML
