/-
  MiniML/Proofs/Eval/Regions.lean
  ===============================
  **The store along whole runs** — terms are evaluated one after the other, each
  against the store that the one before it left, beginning with the empty store.
  In every configuration on the way the ids of the store are the numbers below its
  counter, all contents are values, and every region that the term or a cell
  mentions exists; and no region is ever lost.

  One invariant carries this (`Config.WellFormed`).  A step keeps it as long as the
  counter does not overflow, and only a step that allocates moves the counter, so a
  bound on the number of allocations is all that whole histories need.
-/
import MiniML.Proofs.Eval.Nameless

namespace MiniML

/-! ### The invariant -/

/-- The region exists. -/
def Store.Knows (s : Store) (i : Int64) : Prop := (s.get? i).isSome = true

/-- The ids of the store are `0`, `1`, … up to the counter, its contents are values, and
    every region that they mention exists. -/
structure Store.WellFormed (s : Store) : Prop where
  next_nonneg : 0 ≤ s.next.toInt
  knows_iff : ∀ i, s.Knows i ↔ 0 ≤ i.toInt ∧ i.toInt < s.next.toInt
  isValue : ∀ {i v}, s.get? i = some v → v.isValue = true
  mentioned : ∀ {i v}, s.get? i = some v → v.AllRegions s.Knows

/-- The store is well-formed, and every region that the term mentions exists. -/
structure Config.WellFormed (c : Config) : Prop where
  store : c.store.WellFormed
  term : c.term.AllRegions c.store.Knows

/-- Every region of the first store is in the second. -/
def Store.KeptBy (s s' : Store) : Prop := ∀ i, s.Knows i → s'.Knows i

theorem Store.knows_set {s : Store} {i j : Int64} {v : Term} :
    (s.set i v).Knows j ↔ i = j ∨ s.Knows j := by
  rw [Knows, get?_set, Knows]
  split
  · rename_i hij
    simp [hij]
  · rename_i hij
    simp [hij]

/-! ### Regions of terms -/

namespace Term

variable {P Q : Int64 → Prop}

theorem AllRegions.imp {t : Term} (h : t.AllRegions P) (hPQ : ∀ i, P i → Q i) :
    t.AllRegions Q := by
  rw [allRegions_iff] at h ⊢
  intro i hi
  exact hPQ i (h i hi)

theorem AllRegions.of_fill {K : Frame} {t : Term} (h : (K.fill t).AllRegions P) :
    t.AllRegions P := by
  cases K <;> simp only [Frame.fill, AllRegions] at h <;> grind

theorem AllRegions.refill {K : Frame} {t u : Term} (h : (K.fill t).AllRegions P)
    (hu : u.AllRegions P) : (K.fill u).AllRegions P := by
  cases K <;> simp only [Frame.fill, AllRegions] at h ⊢ <;> grind

theorem AllRegions.subst {x : String} {a t : Term} (ha : a.AllRegions P) (ht : t.AllRegions P) :
    (Term.subst x a t).AllRegions P := by
  induction t with
  | var y =>
    rw [Term.subst]
    split
    · exact ha
    · exact trivial
  | int | nil | unit | region => exact ht
  | abs y b ih =>
    rw [subst_abs, AllRegions]
    split
    · exact ht
    · exact ih ht
  | letIn y v b ihv ihb =>
    rw [Term.subst, AllRegions]
    refine ⟨ihv ht.1, ?_⟩
    split
    · exact ht.2
    · exact ihb ht.2
  | head b ih | tail b ih | fix b ih | mkRef b ih | deref b ih => exact ih ht
  | app b c ih ih' | cons b c ih ih' | add b c ih ih' | sub b c ih ih' | assign b c ih ih' =>
    exact ⟨ih ht.1, ih' ht.2⟩
  | ifZero b c d ih ih' ih'' | ifEmpty b c d ih ih' ih'' =>
    exact ⟨ih ht.1, ih' ht.2.1, ih'' ht.2.2⟩

theorem allRegions_alphaConvert {t : Term} {ρ : Renaming} {s : NameSupply} :
    (t.alphaConvert ρ s).1.AllRegions P ↔ t.AllRegions P := by
  induction t generalizing ρ s with
  | var | int | nil | unit | region => rfl
  | abs _ b ih | head b ih | tail b ih | fix b ih | mkRef b ih | deref b ih =>
    simp only [alphaConvert, AllRegions, ih]
  | letIn _ b c ih ih' | app b c ih ih' | cons b c ih ih' | add b c ih ih' | sub b c ih ih'
  | assign b c ih ih' => simp only [alphaConvert, AllRegions, ih, ih']
  | ifZero b c d ih ih' ih'' | ifEmpty b c d ih ih' ih'' =>
    simp only [alphaConvert, AllRegions, ih, ih', ih'']

/-! ### Allocation -/

/-- Whether the step of a term is the one that moves a value into a new region.  It looks
    for the part that steps as reduction does. -/
def allocates (s : Store) : Term → Bool
  | .var _ | .abs _ _ | .int _ | .nil | .unit | .region _ => false
  | .app f a =>
    match Rule.beta? f a with
    | some _ => false
    | none =>
      match step s f with
      | some _ => f.allocates s
      | none => a.allocates s
  | .cons l r | .add l r | .sub l r | .assign l r =>
    match step s l with
    | some _ => l.allocates s
    | none =>
      match step s r with
      | some _ => r.allocates s
      | none => false
  | .letIn _ l _ | .head l | .tail l | .ifZero l _ _ | .ifEmpty l _ _ | .fix l | .deref l =>
    match step s l with
    | some _ => l.allocates s
    | none => false
  | .mkRef e =>
    match step s e with
    | some _ => e.allocates s
    | none => e.isValue

end Term

/-- Whether the next step of a configuration allocates. -/
def Config.allocates (c : Config) : Bool := c.term.allocates c.store

/-- If a form steps with its part, so does the counter; otherwise it does what it does
    next. -/
theorem next_part {s : Store} {o rest : Option Config} {f : Term → Term} {c : Config} {a b : Bool}
    (h : (match o with
      | some d => some (d.within f)
      | none => rest) = some c)
    (ho : ∀ d, o = some d → d.store.next = if a then s.next + 1 else s.next)
    (hrest : rest = some c → c.store.next = if b then s.next + 1 else s.next) :
    c.store.next = if (match o with
      | some _ => a
      | none => b) then s.next + 1 else s.next := by
  cases o with
  | some d =>
    cases h
    exact ho d rfl
  | none => exact hrest h

theorem next_of_map {s : Store} {o : Option Term} {c : Config} (h : o.map (⟨·, s⟩) = some c) :
    c.store.next = s.next := by
  obtain ⟨w, -, rfl⟩ := Option.map_eq_some_iff.mp h
  rfl

/-- **Only an allocation moves the counter**, if the term mentions no region at or above
    it. -/
theorem Term.next_of_step {s : Store} {t : Term} {c : Config}
    (ht : t.AllRegions fun i => i.toInt < s.next.toInt) (h : step s t = some c) :
    c.store.next = if t.allocates s then s.next + 1 else s.next := by
  induction t generalizing c with
  | var | abs | int | nil | unit | region => exact absurd h (by simp [step])
  | app f a ihf iha =>
    rw [step] at h
    rw [allocates]
    cases hbeta : Rule.beta? f a with
    | some w =>
      rw [hbeta] at h
      cases h
      rfl
    | none =>
      rw [hbeta] at h
      refine next_part h (fun d hf => ihf ht.1 hf) fun h => ?_
      obtain ⟨d, ha, rfl⟩ := Option.map_eq_some_iff.mp h
      exact iha (c := d) ht.2 ha
  | cons l r ihl ihr =>
    rw [step] at h
    rw [allocates]
    refine next_part h (fun d hl => ihl ht.1 hl) fun h => ?_
    obtain ⟨d, hr, rfl⟩ := Option.map_eq_some_iff.mp h
    simp only [hr]
    exact ihr (c := d) ht.2 hr
  | add l r ihl ihr | sub l r ihl ihr =>
    rw [step] at h
    rw [allocates]
    refine next_part h (fun d hl => ihl ht.1 hl) fun h => ?_
    exact next_part h (fun d hr => ihr ht.2 hr) next_of_map
  -- a region that is written lies below the counter, which therefore stays
  | assign l r ihl ihr =>
    rw [step] at h
    rw [allocates]
    refine next_part h (fun d hl => ihl ht.1 hl) fun h => ?_
    refine next_part h (fun d hr => ihr ht.2 hr) fun h => ?_
    cases contracts_of_assign h with
    | assign i hv => exact Store.next_set_of_lt ht.1 r
  | fix f ih =>
    rw [step] at h
    obtain ⟨d, hf, rfl⟩ := Option.map_eq_some_iff.mp h
    rw [allocates]
    simp only [hf]
    exact ih (c := d) ht hf
  | mkRef e ih =>
    rw [step] at h
    rw [allocates]
    refine next_part h (fun d he => ih ht he) fun h => ?_
    cases contracts_of_mkRef h with
    | mkRef hv => rw [hv, if_pos rfl, Store.next_alloc]
  | letIn x l b ih _ =>
    rw [step] at h
    rw [allocates]
    refine next_part h (fun d hl => ih ht.1 hl) fun h => ?_
    split at h
    · cases h
      rfl
    · cases h
  | head l ih | tail l ih | deref l ih =>
    rw [step] at h
    rw [allocates]
    exact next_part h (fun d hl => ih ht hl) next_of_map
  | ifZero l a b ih _ _ | ifEmpty l a b ih _ _ =>
    rw [step] at h
    rw [allocates]
    exact next_part h (fun d hl => ih ht.1 hl) next_of_map

/-! ### Steps -/

theorem Store.knows_mono_set (s : Store) (i : Int64) (v : Term) {j : Int64} (h : s.Knows j) :
    (s.set i v).Knows j :=
  knows_set.mpr (.inr h)

theorem Store.wellFormed_empty : Store.empty.WellFormed := by
  refine ⟨Int.le_refl 0, fun i => ?_, fun h => ?_, fun h => ?_⟩
  · have hnext : Store.empty.next.toInt = 0 := rfl
    have hnone : Store.empty.get? i = none := by simp [get?, empty]
    rw [Knows, hnone, hnext]
    simp
  · simp [get?, empty] at h
  · simp [get?, empty] at h

/-- A write keeps the invariant, to a region that exists or to the next one. -/
theorem Store.WellFormed.set {s : Store} (hs : s.WellFormed) {i : Int64} {v : Term}
    (hv : v.isValue = true) (hvs : v.AllRegions s.Knows) (hnext : s.next.toInt ≤ (s.set i v).next.toInt)
    (hids : ∀ j : Int64, i = j ∨ (0 ≤ j.toInt ∧ j.toInt < s.next.toInt) ↔
      0 ≤ j.toInt ∧ j.toInt < (s.set i v).next.toInt) : (s.set i v).WellFormed := by
  refine ⟨Int.le_trans hs.next_nonneg hnext, fun j => ?_, forall_set hs.isValue hv, fun hu => ?_⟩
  · rw [knows_set, hs.knows_iff, hids]
  · exact (forall_set hs.mentioned hvs hu).imp fun k => s.knows_mono_set i v

theorem Store.WellFormed.assign {s : Store} (hs : s.WellFormed) {i : Int64} {v : Term}
    (hi : s.Knows i) (hv : v.isValue = true) (hvs : v.AllRegions s.Knows) :
    (s.set i v).WellFormed := by
  obtain ⟨hpos, hlt⟩ := (hs.knows_iff i).mp hi
  have hnext := s.next_set_of_lt hlt v
  refine hs.set hv hvs (by rw [hnext]) fun j => ?_
  rw [hnext]
  constructor
  · rintro (rfl | hj)
    · exact ⟨hpos, hlt⟩
    · exact hj
  · exact .inr

theorem Store.WellFormed.alloc {s : Store} (hs : s.WellFormed) {v : Term}
    (hv : v.isValue = true) (hvs : v.AllRegions s.Knows) (hroom : s.next.toInt < 2 ^ 63 - 1) :
    (s.alloc v).2.WellFormed := by
  have hpos := hs.next_nonneg
  have hnext : (s.set s.next v).next.toInt = s.next.toInt + 1 := by
    rw [← Store.toInt_add_one (Int64.lt_iff_toInt_lt.mpr hroom)]
    exact congrArg Int64.toInt (s.next_alloc v)
  refine hs.set hv hvs (by omega) fun j => ?_
  rw [hnext, ← Int64.toInt_inj]
  omega

/-- A contraction keeps the invariant, and loses no region. -/
theorem Contracts.wellFormed {s : Store} {t : Term} {c : Config} (h : Contracts s t c)
    (hs : s.WellFormed) (ht : t.AllRegions s.Knows)
    (hroom : c.store.next ≠ s.next → s.next.toInt < 2 ^ 63 - 1) :
    c.store.WellFormed ∧ c.term.AllRegions c.store.Knows ∧ ∀ i, s.Knows i → c.store.Knows i := by
  cases h with
  | beta x b a => exact ⟨hs, .subst ht.2 ht.1, fun _ => id⟩
  | unfold f b a => exact ⟨hs, ⟨.subst ht.1 ht.1, ht.2⟩, fun _ => id⟩
  | letIn x b hv => exact ⟨hs, .subst ht.1 ht.2, fun _ => id⟩
  | head u w => exact ⟨hs, ht.1, fun _ => id⟩
  | tail u w => exact ⟨hs, ht.2, fun _ => id⟩
  | add m n | sub m n => exact ⟨hs, trivial, fun _ => id⟩
  | ifZero n u w =>
    refine ⟨hs, ?_, fun _ => id⟩
    dsimp only
    split
    · exact ht.2.1
    · exact ht.2.2
  | ifNil u w => exact ⟨hs, ht.2.1, fun _ => id⟩
  | ifCons a l u w => exact ⟨hs, ht.2.2, fun _ => id⟩
  | @mkRef v hv =>
    refine ⟨hs.alloc hv ht (hroom ?_), ?_, fun i => s.knows_mono_set s.next v⟩
    · rw [Store.next_alloc]
      simp
    · exact Store.knows_set.mpr (.inl rfl)
  | deref hi => exact ⟨hs, hs.mentioned hi, fun _ => id⟩
  | @assign i v hv => exact ⟨hs.assign ht.1 hv ht.2, trivial, fun j => s.knows_mono_set i v⟩

theorem Reduces.wellFormed {s : Store} {t : Term} {c : Config} (h : Reduces s t c)
    (hs : s.WellFormed) (ht : t.AllRegions s.Knows)
    (hroom : c.store.next ≠ s.next → s.next.toInt < 2 ^ 63 - 1) :
    c.store.WellFormed ∧ c.term.AllRegions c.store.Knows ∧ ∀ i, s.Knows i → c.store.Knows i := by
  induction h with
  | contract h => exact h.wellFormed hs ht hroom
  | inside K _ ih =>
    -- what the frame mentions was there, and nothing is lost
    obtain ⟨hs', ht', hmono⟩ := ih ht.of_fill hroom
    exact ⟨hs', (ht.imp hmono).refill ht', hmono⟩

/-- **A step keeps the invariant**, loses no region, and moves the counter only if it
    allocates. -/
theorem Config.WellFormed.step {c d : Config} (hc : c.WellFormed) (h : c.step? = some d)
    (hroom : c.allocates = true → c.store.next.toInt < 2 ^ 63 - 1) :
    d.WellFormed ∧ (∀ i, c.store.Knows i → d.store.Knows i) ∧
      d.store.next.toInt = c.store.next.toInt + if c.allocates then 1 else 0 := by
  have hnext : d.store.next = if c.allocates then c.store.next + 1 else c.store.next :=
    Term.next_of_step (hc.term.imp fun i hi => ((hc.store.knows_iff i).mp hi).2) h
  have hroom' : d.store.next ≠ c.store.next → c.store.next.toInt < 2 ^ 63 - 1 := by
    intro hne
    refine hroom (Classical.byContradiction fun hno => hne ?_)
    rw [hnext, if_neg hno]
  obtain ⟨hs, ht, hmono⟩ := (Reduces.of_step h).wellFormed hc.store hc.term hroom'
  refine ⟨⟨hs, ht⟩, hmono, ?_⟩
  rw [hnext]
  split
  · rename_i halloc
    exact Store.toInt_add_one (Int64.lt_iff_toInt_lt.mpr (hroom halloc))
  · exact (Int.add_zero _).symm

/-! ### Runs -/

/-- Configurations each of which steps to the next. -/
abbrev Chain (cs : List Config) : Prop := cs.IsChain fun c d => c.step? = some d

/-- The steps between configurations that allocate. -/
def Chain.allocations (cs : List Config) : Nat := cs.dropLast.countP Config.allocates

theorem chain_configurations (t : Term) (s : Store) (maxSteps : Int64) :
    ∃ cs, configurations t s maxSteps = Run.start t s :: cs ∧ Chain (Run.start t s :: cs) ∧
      (Run.start t s :: cs).getLast? = some (eval t s maxSteps).final ∧
      (eval t s maxSteps).steps = cs.length := by
  obtain ⟨cs, hseen, hsteps, hlast, hchain⟩ :=
    Run.loop_records (stepBound maxSteps) 0 (Run.start t s) []
  have hsame : eval t s maxSteps =
      (evalWith (fun seen n c => (n, c) :: seen) [] t s maxSteps).1 := Run.loop_fst ..
  rw [Nat.zero_add] at hsteps
  exact ⟨cs, congrArg (Run.start t s :: ·) hseen, hchain.imp fun _ _ h => h.1,
    hlast.trans (congrArg (some ∘ Run.final) hsame.symm), (congrArg Run.steps hsame).trans hsteps⟩

/-- **What a run keeps**: all its configurations are well-formed, no region is lost, and
    the counter moves by the number of allocations. -/
theorem Chain.wellFormed {c : Config} {cs : List Config} (h : Chain (c :: cs)) (hc : c.WellFormed)
    (hroom : c.store.next.toInt + Chain.allocations (c :: cs) < 2 ^ 63) :
    (∀ d ∈ c :: cs, d.WellFormed) ∧
      (c :: cs).Pairwise (fun d e => d.store.KeptBy e.store) ∧
      ∀ e, (c :: cs).getLast? = some e → (∀ d ∈ c :: cs, d.store.KeptBy e.store) ∧
        e.store.next.toInt = c.store.next.toInt + Chain.allocations (c :: cs) := by
  induction cs generalizing c with
  | nil =>
    refine ⟨by simpa using hc, List.pairwise_singleton _ _, ?_⟩
    rintro e ⟨⟩
    refine ⟨fun d hd => ?_, by simp [Chain.allocations]⟩
    rw [List.mem_singleton.mp hd]
    exact fun i => id
  | cons d cs ih =>
    obtain ⟨hstep, hrest⟩ := List.isChain_cons_cons.mp h
    have hcount : Chain.allocations (c :: d :: cs) =
        Chain.allocations (d :: cs) + if c.allocates then 1 else 0 := by
      rw [allocations, List.dropLast_cons_cons, List.countP_cons]
      rfl
    rw [hcount, Nat.cast_add, Nat.cast_ite, Nat.cast_one, Nat.cast_zero] at hroom ⊢
    obtain ⟨hd, hkept, hnext⟩ := hc.step hstep fun halloc => by
      rw [if_pos halloc] at hroom
      omega
    obtain ⟨hall, hpair, hlast⟩ := ih hrest hd (by omega)
    -- what the first step keeps, every later one keeps
    have hfirst : ∀ e ∈ d :: cs, c.store.KeptBy e.store := by
      intro e he i hi
      rcases List.mem_cons.mp he with rfl | he
      · exact hkept i hi
      · exact List.rel_of_pairwise_cons hpair he i (hkept i hi)
    refine ⟨List.forall_mem_cons.mpr ⟨hc, hall⟩, List.pairwise_cons.mpr ⟨hfirst, hpair⟩, ?_⟩
    intro e he
    rw [List.getLast?_cons_cons] at he
    obtain ⟨hkept', hnext'⟩ := hlast e he
    refine ⟨List.forall_mem_cons.mpr ⟨hfirst e (List.mem_of_getLast? he), hkept'⟩, ?_⟩
    rw [hnext', hnext]
    omega

/-! ### Histories -/

/-- The configurations that terms go through when they are evaluated in order with the
    given bounds, each against the store that the one before it left. -/
def trail (s : Store) : List (Term × Int64) → List Config
  | [] => []
  | (t, maxSteps) :: rest =>
    configurations t s maxSteps ++ trail (eval t s maxSteps).final.store rest

/-- The number of allocations on the way. -/
def allocations (s : Store) : List (Term × Int64) → Nat
  | [] => 0
  | (t, maxSteps) :: rest =>
    Chain.allocations (configurations t s maxSteps) +
      allocations (eval t s maxSteps).final.store rest

/-- Each term mentions only regions of the store that it is evaluated against. -/
def Addressed (s : Store) : List (Term × Int64) → Prop
  | [] => True
  | (t, maxSteps) :: rest =>
    t.AllRegions s.Knows ∧ Addressed (eval t s maxSteps).final.store rest

theorem Store.WellFormed.trail {s : Store} {jobs : List (Term × Int64)} (hs : s.WellFormed)
    (hjobs : Addressed s jobs) (hroom : s.next.toInt + allocations s jobs < 2 ^ 63) :
    (∀ c ∈ trail s jobs, c.WellFormed ∧ s.KeptBy c.store) ∧
      (MiniML.trail s jobs).Pairwise fun c d => c.store.KeptBy d.store := by
  induction jobs generalizing s with
  | nil => exact ⟨fun c hc => absurd hc (by simp [MiniML.trail]), .nil⟩
  | cons job rest ih =>
    obtain ⟨t, maxSteps⟩ := job
    obtain ⟨ht, hrest⟩ := hjobs
    obtain ⟨cs, hcs, hchain, hlast, -⟩ := chain_configurations t s maxSteps
    rw [allocations, hcs] at hroom
    have hstart : (Run.start t s).WellFormed := ⟨hs, Term.allRegions_alphaConvert.mpr ht⟩
    have hnext : (Run.start t s).store.next = s.next := rfl
    obtain ⟨hall, hpair, hend⟩ := hchain.wellFormed hstart (by rw [hnext]; omega)
    obtain ⟨hkept, hmoved⟩ := hend _ hlast
    rw [hnext] at hmoved
    obtain ⟨hall', hpair'⟩ := ih (hall _ (List.mem_of_getLast? hlast)).store hrest (by omega)
    have hfirst : s.KeptBy (eval t s maxSteps).final.store := hkept _ (.head _)
    rw [MiniML.trail, hcs]
    refine ⟨fun c hc => ?_, List.pairwise_append.mpr ⟨hpair, hpair', ?_⟩⟩
    · rcases List.mem_append.mp hc with hc | hc
      · refine ⟨hall c hc, fun i hi => ?_⟩
        rcases List.mem_cons.mp hc with rfl | hc
        · exact hi
        · exact List.rel_of_pairwise_cons hpair hc i hi
      · exact ⟨(hall' c hc).1, fun i hi => (hall' c hc).2 i (hfirst i hi)⟩
    · intro c hc d hd i hi
      exact (hall' d hd).2 i (hkept c hc i hi)

/-- **The store along whole runs.**  Let terms be evaluated one after the other from the
    empty store, each of which mentions only regions of the store that it meets, and let
    there be fewer allocations than the counter has room for.  Then every configuration on
    the way is well-formed: ids are `0`, `1`, … up to the counter, contents are values, and
    regions that are mentioned exist.  A region stays once it is there, and reading a
    region that is mentioned always steps. -/
theorem trail_wellFormed {jobs : List (Term × Int64)} (hjobs : Addressed .empty jobs)
    (hroom : allocations .empty jobs < 2 ^ 63) :
    (∀ c ∈ trail .empty jobs, c.WellFormed) ∧
      (trail .empty jobs).Pairwise (fun c d => c.store.KeptBy d.store) ∧
      ∀ c ∈ trail .empty jobs, ∀ i ∈ c.term.regions,
        ∃ v, step c.store (.deref (.region i)) = some ⟨v, c.store⟩ := by
  have hnext : Store.empty.next.toInt = 0 := rfl
  obtain ⟨hall, hpair⟩ := Store.wellFormed_empty.trail hjobs (by omega)
  refine ⟨fun c hc => (hall c hc).1, hpair, fun c hc i hi => ?_⟩
  have hknown : c.store.Knows i := Term.allRegions_iff.mp (hall c hc).1.term i hi
  obtain ⟨v, hv⟩ := Option.isSome_iff_exists.mp hknown
  refine ⟨v, ?_⟩
  simp [step, Rule.deref?, hv]

/-- A cell that holds the address of another one, a write to the first, and a read
    through both. -/
theorem trail_wellFormed_nested :
    let jobs : List (Term × Int64) :=
      [(.letIn "r" (.mkRef .nil) (.mkRef (.var "r")), 10),
        (.assign (.region 0) (.cons (.region 1) .nil), 10),
        (.deref (.deref (.region 1)), 10)]
    allocations .empty jobs = 2 ∧ (trail .empty jobs).length = 9 ∧
      ∀ c ∈ trail .empty jobs, c.WellFormed := by
  intro jobs
  have hcount : allocations .empty jobs = 2 := by cbv
  have hjobs : Addressed .empty jobs := by
    refine ⟨by simp [Term.AllRegions], ?_, ?_, trivial⟩
    · exact ⟨by cbv, by cbv, trivial⟩
    · exact show Store.Knows _ _ by cbv
  exact ⟨hcount, by cbv, (trail_wellFormed hjobs (by omega)).1⟩

end MiniML
