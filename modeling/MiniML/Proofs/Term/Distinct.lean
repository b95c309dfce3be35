/-
  MiniML/Proofs/Term/Distinct.lean
  ================================
  **Binders renamed apart** — alpha conversion gives the binders of a term the names that
  the supply issues, one after the other (`boundNames_alphaConvert`), so no two binders
  share a name as long as the supply does not go round.  Nothing else about the term
  changes: its nodes are of the same kinds in the same order, its free variables follow
  the renaming, and under the empty renaming it is the same term up to the names of
  binders.

  The names that are issued are told from those that stand for free variables by the one
  condition that no issued name is free in the term or a target of the renaming.
-/
import MiniML.Proofs.Term.Canonical

namespace MiniML.Term

/-! ### Names of binders -/

/-- A conversion leaves the supply that has issued a name for every binder. -/
theorem snd_alphaConvert (t : Term) (ρ : Renaming) (s : NameSupply) :
    (t.alphaConvert ρ s).2 = (s.freshMany t.binders).2 := by
  rw [NameSupply.freshMany_snd, ← t.count_alphaConvert ρ s, ← t.stem_alphaConvert ρ s]

/-- **The binders receive the names of the supply in the order of issue**, a `letIn` before
    the binders of its value. -/
theorem boundNames_alphaConvert (t : Term) (ρ : Renaming) (s : NameSupply) :
    (t.alphaConvert ρ s).1.boundNames = (s.freshMany t.binders).1 := by
  induction t generalizing ρ s with
  | var | int | nil | unit | region => rfl
  | abs x b ih => simp only [alphaConvert, boundNames, binders, NameSupply.freshMany, ih]
  | letIn x v b ihv ihb =>
    simp only [alphaConvert, boundNames, binders, ihv, ihb, snd_alphaConvert]
    rw [NameSupply.freshMany, NameSupply.freshMany_add]
  | head b ih | tail b ih | fix b ih | mkRef b ih | deref b ih => exact ih ρ s
  | app a b ih ih' | cons a b ih ih' | add a b ih ih' | sub a b ih ih' | assign a b ih ih' =>
    simp only [alphaConvert, boundNames, binders, ih, ih', snd_alphaConvert,
      NameSupply.freshMany_add]
  | ifZero a b c ih ih' ih'' | ifEmpty a b c ih ih' ih'' =>
    simp only [alphaConvert, boundNames, binders, ih, ih', ih'', snd_alphaConvert,
      NameSupply.freshMany_add]

theorem mem_boundNames_alphaConvert_iff {t : Term} {ρ : Renaming} {s : NameSupply} {y : String} :
    y ∈ (t.alphaConvert ρ s).1.boundNames ↔ s.Issued (t.alphaConvert ρ s).2 y := by
  rw [boundNames_alphaConvert, snd_alphaConvert, NameSupply.mem_freshMany_iff]

/-! ### Kinds of nodes -/

/-- Alpha conversion changes no node but for the names in it. -/
theorem map_formName_alphaConvert (t : Term) (ρ : Renaming) (s : NameSupply) :
    (t.alphaConvert ρ s).1.subterms.map formName = t.subterms.map formName := by
  induction t generalizing ρ s with
  | var | int | nil | unit | region => rfl
  | abs x b ih | head b ih | tail b ih | fix b ih | mkRef b ih | deref b ih =>
    simp only [alphaConvert, subterms, List.map_cons, formName, ih]
  | letIn x a b ih ih' | app a b ih ih' | cons a b ih ih' | add a b ih ih' | sub a b ih ih'
  | assign a b ih ih' =>
    simp only [alphaConvert, subterms, List.map_cons, List.map_append, formName, ih, ih']
  | ifZero a b c ih ih' ih'' | ifEmpty a b c ih ih' ih'' =>
    simp only [alphaConvert, subterms, List.map_cons, List.map_append, formName, ih, ih', ih'']

/-! ### Free variables -/

/-- Nothing that the conversion issues is free in the term or a target of the renaming. -/
def Spared (t : Term) (ρ : Renaming) (s : NameSupply) : Prop :=
  ∀ y, s.Issued (t.alphaConvert ρ s).2 y → y ∉ t.freeVars ∧ ∀ x : String, ρ[x]? ≠ some y

theorem Spared.spares {t : Term} {ρ : Renaming} {s : NameSupply} (h : t.Spared ρ s) {x : String}
    (hx : x ∈ t.freeVars) : s.Spares (s.count + t.binders) ((ρ[x]?).getD x) := by
  intro n hn hn' heq
  have hissued : s.Issued (t.alphaConvert ρ s).2 ((ρ[x]?).getD x) :=
    ⟨n, hn, by rwa [count_alphaConvert], heq⟩
  obtain ⟨hfree, htarget⟩ := h _ hissued
  cases hget : ρ[x]? with
  | none =>
    rw [hget, Option.getD_none] at hfree
    exact hfree hx
  | some y =>
    refine htarget x ?_
    rw [hget, Option.getD_some]

theorem Spared.mem_freeVars_iff {t : Term} {ρ : Renaming} {s : NameSupply} (h : t.Spared ρ s)
    {y : String} : y ∈ (t.alphaConvert ρ s).1.freeVars ↔ ∃ x ∈ t.freeVars, y = (ρ[x]?).getD x := by
  constructor
  · exact exists_of_mem_freeVars_alphaConvert
  · rintro ⟨x, hx, rfl⟩
    exact mem_freeVars_alphaConvert_of_spares (Int.le_refl _) hx (h.spares hx)

theorem Spared.alphaEq {t : Term} {s : NameSupply} (h : t.Spared ∅ s) (hsize : t.binders ≤ 2 ^ 64) :
    t.alphaEq (t.alphaConvert ∅ s).1 = true := by
  rw [alphaEq_iff, nameless_alphaConvert_of_not_issued hsize]
  exact fun x hx hissued => (h x hissued).1 hx

/-- **Alpha conversion renames binders apart and changes nothing else.**  Let no name that
    the conversion issues be free in the term or a target of the renaming.  Then the names
    of the binders of the result are exactly the issued ones, in the order of issue, and no
    two are equal, unless there are more binders than the `2 ^ 64` names that a supply has;
    the counter advances by the number of binders; the free variables of the result are
    those of the term, renamed; the result has as many nodes, of the same kinds in the same
    order; and it is alpha-equal to the term if nothing is renamed. -/
theorem alphaConvert_renames_apart (t : Term) (ρ : Renaming) (s : NameSupply)
    (h : t.Spared ρ s) :
    ((t.alphaConvert ρ s).1.boundNames.Nodup ↔ t.binders ≤ 2 ^ 64) ∧
      (t.alphaConvert ρ s).1.boundNames = (s.freshMany t.binders).1 ∧
      (∀ y, y ∈ (t.alphaConvert ρ s).1.boundNames ↔ s.Issued (t.alphaConvert ρ s).2 y) ∧
      (t.alphaConvert ρ s).2 = { s with count := s.count + t.binders } ∧
      (∀ y, y ∈ (t.alphaConvert ρ s).1.freeVars ↔ ∃ x ∈ t.freeVars, y = (ρ[x]?).getD x) ∧
      (t.alphaConvert ρ s).1.size = t.size ∧
      (t.alphaConvert ρ s).1.subterms.map formName = t.subterms.map formName ∧
      (ρ = ∅ → t.binders ≤ 2 ^ 64 → t.alphaEq (t.alphaConvert ρ s).1 = true) := by
  refine ⟨?_, boundNames_alphaConvert t ρ s, fun y => mem_boundNames_alphaConvert_iff, ?_,
    fun y => h.mem_freeVars_iff, size_alphaConvert t ρ s, map_formName_alphaConvert t ρ s, ?_⟩
  · rw [boundNames_alphaConvert, NameSupply.nodup_freshMany_iff]
  · rw [snd_alphaConvert, NameSupply.freshMany_snd]
  · rintro rfl hsize
    exact h.alphaEq hsize

/-- `let x = x in λx. x y` with a supply whose counter goes round between the two binders.
    The value is outside the scope of its `let` and follows the renaming. -/
theorem alphaConvert_renames_apart_wrapped :
    let t : Term := .letIn "x" (.var "x") (.abs "x" (.app (.var "x") (.var "y")))
    let ρ : Renaming := (∅ : Renaming).insert "x" "a"
    let s : NameSupply := .forBinders "" 9223372036854775807
    (t.alphaConvert ρ s).1.boundNames = ["_v9223372036854775807", "_v-9223372036854775808"] ∧
      (t.alphaConvert ρ s).1.boundNames.Nodup ∧ "a" ∈ (t.alphaConvert ρ s).1.freeVars ∧
      (t.alphaConvert ρ s).2.count = 9223372036854775809 ∧
      t.alphaEq (t.alphaConvert ∅ s).1 = true := by
  intro t ρ s
  have hnames : (s.freshMany t.binders).1 =
      ["_v9223372036854775807", "_v-9223372036854775808"] := by cbv
  have hspared : ∀ ρ' : Renaming, (∀ x z : String, ρ'[x]? = some z → z = "a") → t.Spared ρ' s := by
    intro ρ' htarget y hy
    rw [snd_alphaConvert, ← NameSupply.mem_freshMany_iff, hnames] at hy
    have hlong : y ∉ t.freeVars ∧ y ≠ "a" := by
      revert hy y
      decide
    exact ⟨hlong.1, fun x hx => hlong.2 (htarget x y hx)⟩
  have hρ : ∀ x z : String, ρ[x]? = some z → z = "a" := by
    intro x z hz
    rw [Std.ExtTreeMap.getElem?_insert] at hz
    split at hz
    · exact (Option.some.inj hz).symm
    · simp at hz
  obtain ⟨hnodup, hbound, -, hsupply, hfree, -⟩ :=
    alphaConvert_renames_apart t ρ s (hspared ρ hρ)
  obtain ⟨-, -, -, -, -, -, -, halpha⟩ :=
    alphaConvert_renames_apart t ∅ s (hspared ∅ (by simp))
  refine ⟨hbound.trans hnames, hnodup.mpr (by decide), (hfree "a").mpr ⟨"x", ?_, ?_⟩, ?_,
    halpha rfl (by decide)⟩
  · decide
  · simp [ρ]
  · rw [hsupply]
    decide

end MiniML.Term
