/-
  MiniML/Proofs/Eval/Preservation.lean
  ====================================
  **Reduction keeps types** — a step of a closed term that has a family of types
  leads to a term with the same family of types, against a store whose regions
  keep their types and may be joined by a new one.

  Terms are closed here (`Uses.none`), since reduction never enters a binder.  That
  the family is not empty matters: a region that is allocated gets its type from
  one of its members.
-/
import MiniML.Proofs.Eval.Reduction
import MiniML.Proofs.Typing.Uniform

namespace MiniML

/-- A closed term has the family of types `τ`. -/
def Closed (Ψ : StoreTyping) (t : Term) {ι : Type} (τ : ι → Ty) : Prop :=
  Uniform False Ψ t (fun _ => Uses.none) τ

/-- The regions that `Ψ` knows have one type each, lie below the counter, and hold
    terms of their types. -/
structure Store.Typed (Ψ : StoreTyping) (s : Store) : Prop where
  functional : ∀ {id : Int64} {c c' : Ty}, Ψ id c → Ψ id c' → c = c'
  below : ∀ {id : Int64} {c : Ty}, Ψ id c → id.toInt < s.next.toInt
  content : ∀ {id : Int64} {c : Ty}, Ψ id c →
    ∃ v, s.get? id = some v ∧ Closed Ψ v fun _ : Unit => c

/-- The configuration `c` is one in which the regions of `Ψ` kept their types and the
    term has the types `τ`; its counter has moved on from that of `s` by at most one. -/
def Keeps (Ψ : StoreTyping) (s : Store) (c : Config) {ι : Type} (τ : ι → Ty) : Prop :=
  ∃ Ψ' : StoreTyping, (∀ id σ, Ψ id σ → Ψ' id σ) ∧ c.store.Typed Ψ' ∧
    c.store.next.toInt ≤ s.next.toInt + 1 ∧ Closed Ψ' c.term τ

section

variable {Ψ Ψ' : StoreTyping} {t : Term} {ι κ : Type} {τ : ι → Ty} {s : Store}

theorem Closed.mono (h : Closed Ψ t τ) (hΨ : ∀ id σ, Ψ id σ → Ψ' id σ) : Closed Ψ' t τ :=
  Uniform.mono h hΨ

theorem Closed.reindex (h : Closed Ψ t τ) (g : κ → ι) {τ' : κ → Ty} (hτ : ∀ k, τ' k = τ (g k)) :
    Closed Ψ t τ' :=
  Uniform.reindex h g hτ fun _ _ _ => id

/-- What has one type has any family that is constantly that type. -/
theorem Closed.constant {c : Ty} (h : Closed Ψ t fun _ : Unit => c) (hτ : ∀ i, τ i = c) :
    Closed Ψ t τ :=
  h.reindex (fun _ => ()) hτ

theorem Closed.at (h : Closed Ψ t τ) (i : ι) : Closed Ψ t fun _ : Unit => τ i :=
  h.reindex (fun _ => i) fun _ => rfl

/-- A step that leaves the store alone. -/
theorem Keeps.pure (hs : s.Typed Ψ) (h : Closed Ψ t τ) : Keeps Ψ s ⟨t, s⟩ τ :=
  ⟨Ψ, fun _ _ => id, hs, by change s.next.toInt ≤ _; omega, h⟩

/-! ### The rules -/

/-- A closed term may take the place of the variable of an abstraction. -/
theorem Closed.beta {x : String} {b a : Term} {dom cod : Ty}
    (hf : Closed Ψ (.abs x b) fun _ : Unit => .arrow dom cod)
    (ha : Closed Ψ a fun _ : Unit => dom) : Closed Ψ (.subst x a b) fun _ : Unit => cod := by
  obtain ⟨dom', cod', heq, -, hb⟩ := hf ()
  obtain ⟨rfl, rfl⟩ := Ty.arrow.inj heq
  have hb : Uniform False Ψ b (fun _ : Unit => Function.update Uses.none x (· = dom))
      fun _ => cod := hb
  exact Uniform.subst (S := fun _ => (· = dom)) hb
    (Uniform.reindex ha (fun _ => ()) (fun p => p.2) fun _ _ _ => id)

/-- An application has one type, so it is enough to give it that one. -/
theorem Closed.app {f a : Term} {dom cod : Ty} (hτ : ∀ i, τ i = cod)
    (hf : Closed Ψ f fun _ : Unit => .arrow dom cod) (ha : Closed Ψ a fun _ : Unit => dom) :
    Closed Ψ (.app f a) τ :=
  ⟨fun i j => (hτ i).trans (hτ j).symm, fun i => ⟨dom, (hτ i).symm ▸ hf, ha⟩⟩

/-- A region holds a term of the one type that the region has. -/
theorem Closed.deref [Nonempty ι] {id : Int64} {v : Term} (hs : s.Typed Ψ)
    (hr : Closed Ψ (.region id) fun i => .ref (τ i)) (hget : s.get? id = some v) :
    Closed Ψ v τ := by
  have hΨ : ∀ i, Ψ id (τ i) := by
    intro i
    obtain ⟨c, heq, hc⟩ := hr i
    exact Ty.ref.inj heq ▸ hc
  obtain ⟨i₀⟩ := ‹Nonempty ι›
  obtain ⟨w, hw, ht⟩ := hs.content (hΨ i₀)
  obtain rfl := Option.some.inj (hw.symm.trans hget)
  exact ht.constant fun i => hs.functional (hΨ i) (hΨ i₀)

/-- A new region gets the one type that its content has. -/
theorem Keeps.mkRef [Nonempty ι] {v : Term} (hs : s.Typed Ψ)
    (hroom : s.next.toInt < 2 ^ 63 - 1) (hconst : ∀ i j, τ i = τ j) {content : ι → Ty}
    (hτ : ∀ i, τ i = .ref (content i)) (hv : Closed Ψ v content) :
    Keeps Ψ s ⟨.region (s.alloc v).1, (s.alloc v).2⟩ τ := by
  obtain ⟨i₀⟩ := ‹Nonempty ι›
  have hcontent : ∀ i, content i = content i₀ := fun i =>
    Ty.ref.inj ((hτ i).symm.trans ((hconst i i₀).trans (hτ i₀)))
  have hnext : (s.alloc v).2.next.toInt = s.next.toInt + 1 := by
    rw [s.next_alloc, Store.toInt_add_one (Int64.lt_iff_toInt_lt.mpr hroom)]
  have hget : ∀ id, (s.alloc v).2.get? id = if s.next = id then some v else s.get? id :=
    fun id => s.get?_set s.next id v
  let Ψ' : StoreTyping := fun id σ => Ψ id σ ∨ (id = s.next ∧ σ = content i₀)
  have hΨ : ∀ id σ, Ψ id σ → Ψ' id σ := fun _ _ => .inl
  -- no known region is at the counter, so the new one has no other type
  have hnew : ∀ {σ}, ¬ Ψ s.next σ := fun h => Int.lt_irrefl _ (hs.below h)
  refine ⟨Ψ', hΨ, ⟨?functional, ?below, ?content⟩, by rw [hnext], fun i =>
    ⟨content i, hτ i, .inr ⟨rfl, hcontent i⟩⟩⟩
  case functional =>
    rintro id c c' (h | ⟨rfl, rfl⟩) (h' | ⟨hid, rfl⟩)
    · exact hs.functional h h'
    · exact absurd (hid ▸ h) hnew
    · exact absurd h' hnew
    · rfl
  case below =>
    intro id c h
    change id.toInt < (s.alloc v).2.next.toInt
    rw [hnext]
    obtain h | ⟨rfl, -⟩ := h
    · exact Int.lt_add_one_of_le (Int.le_of_lt (hs.below h))
    · exact Int.lt_succ _
  case content =>
    rintro id c (h | ⟨rfl, rfl⟩)
    · obtain ⟨w, hw, ht⟩ := hs.content h
      refine ⟨w, ?_, ht.mono hΨ⟩
      rw [hget, if_neg, hw]
      rintro rfl
      exact hnew h
    · exact ⟨v, by rw [hget, if_pos rfl], (hv.at i₀).mono hΨ⟩

/-- Writing a region keeps its type. -/
theorem Keeps.assign [Nonempty ι] {id : Int64} {v : Term} (hs : s.Typed Ψ)
    (hτ : ∀ i, τ i = .unit) {content : ι → Ty}
    (hr : Closed Ψ (.region id) fun i => .ref (content i)) (hv : Closed Ψ v content) :
    Keeps Ψ s ⟨.unit, s.set id v⟩ τ := by
  obtain ⟨i₀⟩ := ‹Nonempty ι›
  have hΨ : Ψ id (content i₀) := by
    obtain ⟨c, heq, hc⟩ := hr i₀
    exact Ty.ref.inj heq ▸ hc
  have hnext : (s.set id v).next = s.next := Store.next_set_of_lt (hs.below hΨ) v
  refine ⟨Ψ, fun _ _ h => h, ⟨hs.functional, fun h => ?_, fun {j c} h => ?_⟩,
    by rw [hnext]; omega, hτ⟩
  · rw [hnext]
    exact hs.below h
  · by_cases hj : id = j
    · subst hj
      rw [hs.functional h hΨ]
      exact ⟨v, (s.get?_set id id v).trans (if_pos rfl), hv.at i₀⟩
    · obtain ⟨w, hw, ht⟩ := hs.content h
      exact ⟨w, ((s.get?_set id j v).trans (if_neg hj)).trans hw, ht⟩

/-- **A contraction keeps types.** -/
theorem Contracts.keeps [Nonempty ι] {c : Config} (h : Contracts s t c) (hs : s.Typed Ψ)
    (hroom : s.next.toInt < 2 ^ 63 - 1) (ht : Closed Ψ t τ) : Keeps Ψ s c τ := by
  cases h with
  | beta x b a =>
    obtain ⟨hconst, happ⟩ := ht
    -- an application has one type throughout, so one member of the family will do
    obtain ⟨i₀⟩ := ‹Nonempty ι›
    obtain ⟨dom, hf, ha⟩ := happ i₀
    exact .pure hs ((Closed.beta hf ha).constant fun i => hconst i i₀)
  | unfold f b a =>
    obtain ⟨hconst, happ⟩ := ht
    obtain ⟨i₀⟩ := ‹Nonempty ι›
    obtain ⟨dom, hfix, ha⟩ := happ i₀
    exact .pure hs (.app (fun i => hconst i i₀) (Closed.beta hfix hfix) ha)
  -- the value is typed at each type at which its name is used, which is what it takes
  | letIn x b hval =>
    obtain ⟨S, -, -, -, hv, hb⟩ := ht
    exact .pure hs (Uniform.subst hb hv)
  | head =>
    obtain ⟨elem, heq, ha, -⟩ := ht
    exact .pure hs (Closed.reindex ha id fun i => Ty.list.inj (heq i))
  | tail =>
    obtain ⟨-, -, -, -, hl⟩ := ht
    exact .pure hs hl
  | add | sub => exact .pure hs ht.1
  | ifZero n t e =>
    obtain ⟨-, ht, he⟩ := ht
    refine .pure hs ?_
    split <;> assumption
  | ifNil => exact .pure hs ht.2.1
  | ifCons => exact .pure hs ht.2.2
  | mkRef hval =>
    obtain ⟨hconst, content, hτ, hv⟩ := ht
    exact .mkRef hs hroom hconst hτ hv
  | deref hget => exact .pure hs (Closed.deref hs ht hget)
  | assign id hval =>
    obtain ⟨hτ, content, hr, hv⟩ := ht
    exact .assign hs hτ hr hv

end

/-! ### Steps -/

/-- A part that keeps its types does so inside a term. -/
theorem Keeps.within {Ψ : StoreTyping} {s : Store} {c : Config} {ι κ : Type} {τ : ι → Ty}
    {τ' : κ → Ty} (h : Keeps Ψ s c τ') {f : Term → Term}
    (hf : ∀ {Ψ' : StoreTyping}, (∀ id σ, Ψ id σ → Ψ' id σ) → Closed Ψ' c.term τ' →
      Closed Ψ' (f c.term) τ) : Keeps Ψ s (c.within f) τ := by
  obtain ⟨Ψ', hΨ, hs, hnext, ht⟩ := h
  exact ⟨Ψ', hΨ, hs, hnext, hf hΨ ht⟩

theorem Reduces.keeps {Ψ : StoreTyping} {s : Store} {t : Term} {c : Config} (hred : Reduces s t c)
    (hs : s.Typed Ψ) (hroom : s.next.toInt < 2 ^ 63 - 1) {ι : Type} [Nonempty ι] {τ : ι → Ty}
    (h : Closed Ψ t τ) : Keeps Ψ s c τ := by
  induction hred generalizing ι with
  | contract hc => exact hc.keeps hs hroom h
  | inside K _ ih =>
    -- what the part in the hole is used at follows from the frame, and so do the
    -- types of the whole; the other parts keep theirs when regions are added
    cases K with
    | func a =>
      obtain ⟨hconst, happ⟩ := h
      obtain ⟨i₀⟩ := ‹Nonempty ι›
      obtain ⟨dom, hf, ha⟩ := happ i₀
      exact (ih hf).within fun hΨ hf' => .app (fun i => hconst i i₀) hf' (ha.mono hΨ)
    | arg f =>
      obtain ⟨hconst, happ⟩ := h
      obtain ⟨i₀⟩ := ‹Nonempty ι›
      obtain ⟨dom, hf, ha⟩ := happ i₀
      exact (ih ha).within fun hΨ ha' => .app (fun i => hconst i i₀) (hf.mono hΨ) ha'
    | value x b =>
      obtain ⟨S, hne, hmono, -, hv, hb⟩ := h
      obtain ⟨i₀⟩ := ‹Nonempty ι›
      obtain ⟨σ₀, hσ₀⟩ := hne i₀
      have : Nonempty { p : ι × Ty // S p.1 p.2 } := ⟨⟨(i₀, σ₀), hσ₀⟩⟩
      exact (ih hv).within fun hΨ hv' => ⟨S, hne, hmono, False.elim, hv', hb.mono hΨ⟩
    | consHead l =>
      obtain ⟨elem, heq, ha, hl⟩ := h
      exact (ih ha).within fun hΨ ha' => ⟨elem, heq, ha', hl.mono hΨ⟩
    | consTail a =>
      obtain ⟨elem, heq, ha, hl⟩ := h
      exact (ih hl).within fun hΨ hl' => ⟨elem, heq, ha.mono hΨ, hl'⟩
    | head => exact (ih (τ := fun i => .list (τ i)) h).within fun _ hl' => hl'
    | tail =>
      obtain ⟨helem, hl⟩ := h
      exact (ih hl).within fun _ hl' => ⟨helem, hl'⟩
    | addLeft r | subLeft r =>
      obtain ⟨hτ, hl, hr⟩ := h
      exact (ih hl).within fun hΨ hl' => ⟨hτ, hl', hr.mono hΨ⟩
    | addRight l | subRight l =>
      obtain ⟨hτ, hl, hr⟩ := h
      exact (ih hr).within fun hΨ hr' => ⟨hτ, hl.mono hΨ, hr'⟩
    | ifZero t e =>
      obtain ⟨hc, ht, he⟩ := h
      exact (ih hc).within fun hΨ hc' => ⟨hc', ht.mono hΨ, he.mono hΨ⟩
    | ifEmpty t e =>
      obtain ⟨⟨elem, hc⟩, ht, he⟩ := h
      exact (ih hc).within fun hΨ hc' => ⟨⟨elem, hc'⟩, ht.mono hΨ, he.mono hΨ⟩
    | fix => exact (ih (τ := fun i => .arrow (τ i) (τ i)) h).within fun _ hf' => hf'
    | mkRef =>
      obtain ⟨hconst, content, hτ, he⟩ := h
      exact (ih he).within fun _ he' => ⟨hconst, content, hτ, he'⟩
    | deref => exact (ih (τ := fun i => .ref (τ i)) h).within fun _ he' => he'
    | assignRef v =>
      obtain ⟨hτ, content, hr, hv⟩ := h
      exact (ih hr).within fun hΨ hr' => ⟨hτ, content, hr', hv.mono hΨ⟩
    | assignValue r =>
      obtain ⟨hτ, content, hr, hv⟩ := h
      exact (ih hv).within fun hΨ hv' => ⟨hτ, content, hr.mono hΨ, hv'⟩

/-- **Preservation.**  A step of a closed term keeps its types. -/
theorem Closed.step {Ψ : StoreTyping} {s : Store} (hs : s.Typed Ψ)
    (hroom : s.next.toInt < 2 ^ 63 - 1) {t : Term} {c : Config} (hstep : MiniML.step s t = some c)
    {ι : Type} [Nonempty ι] {τ : ι → Ty} (h : Closed Ψ t τ) : Keeps Ψ s c τ :=
  (Reduces.of_step hstep).keeps hs hroom h

end MiniML
