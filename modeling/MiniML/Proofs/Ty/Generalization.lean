/-
  MiniML/Proofs/Ty/Generalization.lean
  ====================================
  **Quantifying and instantiating** — a monotype that is generalised and then used at
  fresh variables comes back, renamed.

  Three orders meet here: the occurrences of variables from left to right, the
  quantifiers from the outside in, and the fresh names by number.  A fresh name may well
  be the name of a quantifier, since supplies start again; what matters is only that no
  fixed variable of the type is issued.
-/
import MiniML.Proofs.Ty.Scheme

namespace MiniML.Ty

/-! ### Occurrences -/

/-- The free variables as often as they occur, from left to right. -/
def occurrences : Ty → List String
  | .var x => [x]
  | .arrow a b => a.occurrences ++ b.occurrences
  | .int | .unit => []
  | .list e => e.occurrences
  | .ref c => c.occurrences
  | .all v b => b.occurrences.filter (· ≠ v)

theorem eraseDups_filter (p : String → Bool) (l : List String) :
    (l.filter p).eraseDups = l.eraseDups.filter p := by
  induction l using List.reverseRecOn with
  | nil => rfl
  | append_singleton l x ih =>
    rw [List.filter_append, List.eraseDups_append, ih, List.eraseDups_append, List.filter_append]
    refine congrArg (l.eraseDups.filter p ++ ·) ?_
    cases hx : p x <;> by_cases hl : x ∈ l <;>
      simp [List.removeAll, List.eraseDups_cons, hx, hl]

/-- **The order of free variables** is that of their first occurrences. -/
theorem freeVars_eq_eraseDups (t : Ty) : t.freeVars = t.occurrences.eraseDups := by
  induction t with
  | var x => rfl
  | arrow a b iha ihb =>
    rw [occurrences, List.eraseDups_append, List.removeAll, eraseDups_filter, ← iha, ← ihb,
      freeVars]
    refine congrArg (a.freeVars ++ ·) (List.filter_congr fun x _ => ?_)
    rw [iha, List.elem_eq_mem]
    simp
  | int | unit => rfl
  | list e ih => exact ih
  | ref c ih => exact ih
  | all v b ih => rw [occurrences, eraseDups_filter, ← ih, freeVars]

/-! ### Quantifying -/

/-- The free variables that are not fixed, each once, by first occurrence. -/
def loose (fixed : NameSet) (t : Ty) : List String :=
  (t.occurrences.filter fun v => v ∉ fixed).eraseDups

theorem loose_eq (fixed : NameSet) (t : Ty) :
    t.loose fixed = t.freeVars.filter fun v => v ∉ fixed := by
  rw [loose, eraseDups_filter, freeVars_eq_eraseDups]

theorem mem_loose {fixed : NameSet} {t : Ty} {v : String} :
    v ∈ t.loose fixed ↔ v ∈ t.freeVars ∧ v ∉ fixed := by
  rw [loose_eq, List.mem_filter, decide_eq_true_eq]

theorem nodup_loose (fixed : NameSet) (t : Ty) : (t.loose fixed).Nodup := by
  rw [loose_eq]
  exact (nodup_freeVars t).filter _

theorem generalize_eq (fixed : NameSet) (t : Ty) :
    t.generalize fixed = allMany (t.loose fixed) t := by
  rw [generalize, loose_eq]
  refine congrArg (allMany · t) (List.filter_congr fun v _ => ?_)
  rw [Bool.eq_iff_iff, Bool.not_eq_true', decide_eq_true_eq, Std.ExtTreeSet.mem_iff_contains,
    Bool.not_eq_true]

/-- Quantifiers take their variables out of the list. -/
theorem freeVars_allMany (names : List String) (t : Ty) :
    (allMany names t).freeVars = t.freeVars.filter fun v => v ∉ names := by
  induction names with
  | nil => simp [allMany]
  | cons q names ih =>
    change (Ty.all q (allMany names t)).freeVars = _
    rw [freeVars, ih, List.filter_filter]
    refine List.filter_congr fun v _ => ?_
    simp

theorem freeVars_generalize (fixed : NameSet) (t : Ty) :
    (t.generalize fixed).freeVars = t.freeVars.filter fun v => v ∈ fixed := by
  rw [generalize_eq, freeVars_allMany]
  refine List.filter_congr fun v hv => ?_
  simp [mem_loose, hv]

/-! ### Instantiating -/

/-- What an instantiation at the names of the supply does to variables: a quantified one
    becomes the name that was issued for its innermost quantifier, any other one stays. -/
structure Renews (names : List String) (s : NameSupply) (ren : String → String) : Prop where
  innermost : ∀ (i : Nat) (h : i < names.length), names[i] ∉ names.drop (i + 1) →
    ren names[i] = s.nameAt (s.count + i)
  fixes : ∀ v, v ∉ names → ren v = v

/-- **Instantiation renames**, whatever names the supply issues. -/
theorem instantiate_renews {σ : Ty} (hσ : σ.Prenex) (s : NameSupply) :
    ∃ ren, Renews σ.splitAll.1 s ren ∧
      (σ.instantiate s).1 = σ.splitAll.2.bind fun v => .var (ren v) := by
  obtain ⟨number, hnumber, heq⟩ := σ.instantiate_numbers hσ s
  refine ⟨_, ⟨fun i h hlast => ?_, fun v hv => if_neg hv⟩, heq⟩
  rw [if_pos (List.getElem_mem h), hnumber i h hlast]

theorem instantiate_snd (σ : Ty) (s : NameSupply) :
    (σ.instantiate s).2 = { s with count := s.count + σ.splitAll.1.length } :=
  s.freshMany_snd _

/-- No name that the supply issues for a generalisation of the type is one of its fixed
    variables. -/
def Avoids (s : NameSupply) (fixed : NameSet) (t : Ty) : Prop :=
  ∀ v ∈ t.freeVars, v ∈ fixed → ∀ i < (t.loose fixed).length, s.nameAt (s.count + i) ≠ v

section

variable {fixed : NameSet} {t : Ty} {s : NameSupply} {ren : String → String}

/-- The loose variables go to the issued names, in order. -/
theorem Renews.getElem_loose (h : Renews (t.loose fixed) s ren) (i : Nat)
    (hi : i < (t.loose fixed).length) :
    ren (t.loose fixed)[i] = s.nameAt (s.count + i) := by
  refine h.innermost i hi fun hlater => ?_
  obtain ⟨j, hj, heq⟩ := List.mem_iff_getElem.mp hlater
  rw [List.getElem_drop] at heq
  have := (nodup_loose fixed t).getElem_inj_iff.mp heq
  omega

theorem Renews.eq_of_fixed (h : Renews (t.loose fixed) s ren) {v : String} (hv : v ∈ fixed) :
    ren v = v :=
  h.fixes v fun hloose => (mem_loose.mp hloose).2 hv

/-- Different variables stay different as long as the supply has names for them. -/
theorem Renews.injective_iff (h : Renews (t.loose fixed) s ren) (hs : Avoids s fixed t) :
    (∀ v ∈ t.freeVars, ∀ w ∈ t.freeVars, ren v = ren w → v = w) ↔
      (t.loose fixed).length ≤ 2 ^ 64 := by
  constructor
  · intro hinj
    refine Nat.le_of_not_lt fun hlong => ?_
    have hzero : 0 < (t.loose fixed).length := by omega
    have heq : (t.loose fixed)[0] = (t.loose fixed)[2 ^ 64] := by
      refine hinj _ (mem_loose.mp (List.getElem_mem hzero)).1 _
        (mem_loose.mp (List.getElem_mem hlong)).1 ?_
      rw [h.getElem_loose 0 hzero, h.getElem_loose _ hlong, NameSupply.nameAt_eq_iff]
      omega
    have := (nodup_loose fixed t).getElem_inj_iff.mp heq
    omega
  · intro hroom v hv w hw heq
    -- a loose variable goes to an issued name, and a fixed one is none
    have hcases : ∀ u ∈ t.freeVars, u ∈ fixed ∧ ren u = u ∨
        ∃ (i : Nat) (hi : i < (t.loose fixed).length), (t.loose fixed)[i] = u ∧
          ren u = s.nameAt (s.count + i) := by
      intro u hu
      by_cases hfixed : u ∈ fixed
      · exact .inl ⟨hfixed, h.eq_of_fixed hfixed⟩
      · obtain ⟨i, hi, rfl⟩ := List.mem_iff_getElem.mp (mem_loose.mpr ⟨hu, hfixed⟩)
        exact .inr ⟨i, hi, rfl, h.getElem_loose i hi⟩
    obtain ⟨hvf, hvr⟩ | ⟨i, hi, hvi, hvr⟩ := hcases v hv <;>
      obtain ⟨hwf, hwr⟩ | ⟨j, hj, hwj, hwr⟩ := hcases w hw
    · rw [← hvr, heq, hwr]
    · exact absurd (by rw [← hwr, ← heq, hvr]) (hs v hv hvf j hj)
    · exact absurd (by rw [← hvr, heq, hwr]) (hs w hw hwf i hi)
    · rw [hvr, hwr, NameSupply.nameAt_eq_iff] at heq
      obtain rfl : i = j := by omega
      rw [← hvi, ← hwj]

end

/-- **Generalisation and instantiation undo each other up to fresh names.**  A
    generalised monotype quantifies its variables that are not fixed, each once, the
    first outermost; at the names that a supply issues it is the type again, with the
    `i`-th quantified variable renamed to the `i`-th name and the fixed ones in place.
    The renaming is injective on the variables of the type exactly as long as the supply
    does not repeat itself.  Any scheme is instantiated by the innermost quantifiers of
    its variables. -/
theorem instantiate_generalize {t : Ty} (ht : t.Mono) (fixed : NameSet) (s : NameSupply)
    (hs : Avoids s fixed t) :
    (t.generalize fixed = allMany (t.loose fixed) t ∧ (t.loose fixed).Nodup ∧
      (∀ v, v ∈ t.loose fixed ↔ v ∈ t.freeVars ∧ v ∉ fixed) ∧
      (t.generalize fixed).freeVars = t.freeVars.filter fun v => v ∈ fixed) ∧
    (∃ ren : String → String,
      ((t.generalize fixed).instantiate s).1 = t.bind (fun v => .var (ren v)) ∧
      (∀ v ∈ t.freeVars, v ∈ fixed → ren v = v) ∧
      (∀ (i : Nat) (h : i < (t.loose fixed).length),
        ren (t.loose fixed)[i] = s.nameAt (s.count + i)) ∧
      ((∀ v ∈ t.freeVars, ∀ w ∈ t.freeVars, ren v = ren w → v = w) ↔
        (t.loose fixed).length ≤ 2 ^ 64)) ∧
    ((t.generalize fixed).instantiate s).2 =
      { s with count := s.count + (t.loose fixed).length } ∧
    ∀ σ : Ty, σ.Prenex → ∀ supply : NameSupply,
      (∃ ren, Renews σ.splitAll.1 supply ren ∧
        (σ.instantiate supply).1 = σ.splitAll.2.bind fun v => .var (ren v)) ∧
      (σ.instantiate supply).2 =
        { supply with count := supply.count + σ.splitAll.1.length } := by
  have hsplit : (t.generalize fixed).splitAll = (t.loose fixed, t) := by
    rw [generalize_eq, splitAll_allMany ht]
  have hσ : (t.generalize fixed).Prenex := (generalizes_generalize fixed t).prenex ht
  refine ⟨⟨generalize_eq fixed t, nodup_loose fixed t, fun v => mem_loose,
    freeVars_generalize fixed t⟩, ?_, ?_, fun σ hσ supply => ⟨instantiate_renews hσ supply,
    instantiate_snd σ supply⟩⟩
  · obtain ⟨ren, hren, heq⟩ := instantiate_renews hσ s
    rw [hsplit] at hren heq
    exact ⟨ren, heq, fun v _ hv => hren.eq_of_fixed hv, hren.getElem_loose, hren.injective_iff hs⟩
  · rw [instantiate_snd, hsplit]

/-- The first fresh names are those of the quantified variables, the other way round; a
    quantifier is repeated. -/
theorem instantiate_generalize_exchanged :
    let t : Ty := .arrow (.var "T1") (.arrow (.var "b") (.arrow (.var "T0") (.var "T1")))
    let fixed := NameSet.ofNames ["b"]
    let s : NameSupply := ⟨"T", 0⟩
    t.Mono ∧ Avoids s fixed t ∧ t.generalize fixed = .all "T1" (.all "T0" t) ∧
      ((t.generalize fixed).instantiate s).1 =
        .arrow (.var "T0") (.arrow (.var "b") (.arrow (.var "T1") (.var "T0"))) ∧
      ((t.generalize fixed).instantiate s).2 = ⟨"T", 2⟩ ∧
      ((Ty.all "a" (.all "a" (.arrow (.var "a") (.var "b")))).instantiate s).1 =
        .arrow (.var "T1") (.var "b") := by
  intro t fixed s
  have ht : t.Mono := by simp [t, Mono]
  have hs : Avoids s fixed t := by
    rw [Avoids]
    decide
  obtain ⟨⟨hσ, -, -, -⟩, -, hcount, -⟩ := instantiate_generalize ht fixed s hs
  exact ⟨ht, hs, hσ, by decide, hcount, by decide⟩

end MiniML.Ty
