/-
  MiniML/Proofs/Name/Fresh.lean
  =============================
  **Freshness** — which names a supply issues, and that they are new.

  A name carries its number as a 64-bit word, so two numbers have one name exactly if
  they agree modulo `2 ^ 64` (`nameAt_eq_iff`); below `2 ^ 63`, where no word overflows,
  names with different numbers differ.  Everything that is said about fresh names rests
  on this one fact; it is used through two notions:

    * `s.Issued s' x`: the name `x` is issued on the way from `s` to `s'`;
    * `s.Spares limit x`: no name that `s` issues before its count reaches `limit`
      is `x`.
-/
import Mathlib.Algebra.Group.Int.Defs
import Mathlib.Algebra.Group.Nat.Defs
import Std.Data.String.ToInt
import MiniML.Name

namespace MiniML.NameSupply

/-- `s'` is `s` after some names were issued. -/
structure Before (s s' : NameSupply) : Prop where
  stem : s'.stem = s.stem
  count : s.count ≤ s'.count

/-- `x` is issued on the way from `s` to `s'`. -/
def Issued (s s' : NameSupply) (x : String) : Prop :=
  ∃ n, s.count ≤ n ∧ n < s'.count ∧ x = s.nameAt n

/-- No name that `s` issues before its count reaches `limit` is `x`. -/
def Spares (s : NameSupply) (limit : Int) (x : String) : Prop :=
  ∀ n, s.count ≤ n → n < limit → x ≠ s.nameAt n

theorem word_eq_iff {m n : Int} : Int64.ofInt m = Int64.ofInt n ↔ m % 2 ^ 64 = n % 2 ^ 64 := by
  have hsize : (Int64.size : Int) = 2 ^ 64 := rfl
  rw [← Int64.toInt_inj, Int64.toInt_ofInt, Int64.toInt_ofInt, ← hsize]
  constructor
  · intro h
    rw [← Int.bmod_emod, h, Int.bmod_emod]
  · intro h
    rw [← Int.emod_bmod, h, Int.emod_bmod]

/-- Two numbers have one name exactly if they have one word. -/
theorem nameAt_eq_iff {s : NameSupply} {m n : Int} :
    s.nameAt m = s.nameAt n ↔ m % 2 ^ 64 = n % 2 ^ 64 := by
  rw [nameAt, nameAt, String.append_right_inj, decimal, decimal, ← word_eq_iff]
  constructor
  · intro h
    exact Int64.toInt_inj.mp (Int.repr_injective h)
  · intro h
    rw [h]

/-- Names with different numbers differ, unless the word has overflowed. -/
theorem nameAt_inj {s : NameSupply} {m n : Int} (hm : 0 ≤ m) (hm' : m < 2 ^ 63) (hn : 0 ≤ n)
    (hn' : n < 2 ^ 63) (h : s.nameAt m = s.nameAt n) : m = n := by
  rw [nameAt_eq_iff] at h
  omega

theorem nameAt_congr {s s' : NameSupply} (h : s'.stem = s.stem) (n : Int) :
    s'.nameAt n = s.nameAt n := by
  rw [nameAt, nameAt, h]

/-! ### The order of supplies -/

theorem Before.refl (s : NameSupply) : s.Before s := ⟨rfl, Int.le_refl _⟩

theorem Before.trans {s₁ s₂ s₃ : NameSupply} (h : s₁.Before s₂) (h' : s₂.Before s₃) :
    s₁.Before s₃ :=
  ⟨h'.stem.trans h.stem, Int.le_trans h.count h'.count⟩

theorem before_fresh (s : NameSupply) : s.Before s.fresh.2 :=
  ⟨rfl, by rw [count_fresh]; omega⟩

theorem count_freshMany (s : NameSupply) (k : Nat) : (s.freshMany k).2.count = s.count + k := by
  induction k generalizing s with
  | zero => simp [freshMany]
  | succ k ih => simp only [freshMany, ih, count_fresh]; omega

theorem before_freshMany (s : NameSupply) (k : Nat) : s.Before (s.freshMany k).2 := by
  induction k generalizing s with
  | zero => exact .refl s
  | succ k ih => exact (before_fresh s).trans (ih s.fresh.2)

/-! ### Issued names -/

theorem issued_fresh (s : NameSupply) : s.Issued s.fresh.2 s.fresh.1 :=
  ⟨s.count, Int.le_refl _, by rw [count_fresh]; omega, rfl⟩

theorem Issued.later {s s₁ s₂ : NameSupply} {x : String} (h : s.Issued s₁ x)
    (hs : s₁.Before s₂) : s.Issued s₂ x := by
  obtain ⟨n, hn, hn', rfl⟩ := h
  have := hs.count
  exact ⟨n, hn, by omega, rfl⟩

theorem Issued.earlier {s s₁ s₂ : NameSupply} {x : String} (h : s₁.Issued s₂ x)
    (hs : s.Before s₁) : s.Issued s₂ x := by
  obtain ⟨n, hn, hn', rfl⟩ := h
  have := hs.count
  exact ⟨n, by omega, hn', nameAt_congr hs.stem n⟩

/-! ### Spared names -/

theorem Spares.later {s s' : NameSupply} {limit : Int} {x : String} (h : s.Spares limit x)
    (hs : s.Before s') : s'.Spares limit x := by
  intro n hn hn'
  have := hs.count
  rw [nameAt_congr hs.stem]
  exact h n (by omega) hn'

theorem Spares.not_issued {s s' : NameSupply} {limit : Int} {x : String} (h : s.Spares limit x)
    (hs : s'.count ≤ limit) : ¬ s.Issued s' x := by
  rintro ⟨n, hn, hn', hx⟩
  exact h n hn (by omega) hx

theorem Spares.ne_fresh {s : NameSupply} {limit : Int} {x : String} (h : s.Spares limit x)
    (hs : s.fresh.2.count ≤ limit) : x ≠ s.fresh.1 :=
  h s.count (Int.le_refl _) (by rw [count_fresh] at hs; omega)

/-- A name that was issued is not issued again. -/
theorem Issued.spares {s s' : NameSupply} {limit : Int} {x : String} (h : s.Issued s' x)
    (hs : s.Before s') (hpos : 0 ≤ s.count) (hlimit : limit ≤ 2 ^ 63) : s'.Spares limit x := by
  obtain ⟨n, hn, hn', rfl⟩ := h
  intro m hm hm' heq
  rw [nameAt_congr hs.stem] at heq
  have := hs.count
  have := nameAt_inj (by omega) (by omega) (by omega) (by omega) heq
  omega

theorem spares_fresh {s : NameSupply} {limit : Int} (hpos : 0 ≤ s.count)
    (hlimit : limit ≤ 2 ^ 63) : s.fresh.2.Spares limit s.fresh.1 :=
  (issued_fresh s).spares (before_fresh s) hpos hlimit

/-- A name is issued again only after all words have been issued. -/
theorem spares_fresh_of_le {s : NameSupply} {limit : Int} (h : limit ≤ s.count + 2 ^ 64) :
    s.fresh.2.Spares limit s.fresh.1 := by
  intro n hn hn' heq
  rw [count_fresh] at hn
  have hmod : s.count % 2 ^ 64 = n % 2 ^ 64 := (nameAt_eq_iff (s := s)).mp heq
  omega

/-! ### Words -/

/-- The supplies issue the same names from now on: they have one stem, and their counts
    have one word. -/
structure SameWord (s s' : NameSupply) : Prop where
  stem : s.stem = s'.stem
  next : s.next = s'.next

theorem SameWord.fresh {s s' : NameSupply} (h : s.SameWord s') :
    s.fresh.1 = s'.fresh.1 ∧ s.fresh.2.SameWord s'.fresh.2 := by
  refine ⟨?_, h.stem, ?_⟩
  · change s.stem ++ decimal s.next = s'.stem ++ decimal s'.next
    rw [h.stem, h.next]
  · rw [next_fresh, next_fresh, h.next]

theorem SameWord.freshMany {s s' : NameSupply} (h : s.SameWord s') (k : Nat) :
    (s.freshMany k).1 = (s'.freshMany k).1 ∧ (s.freshMany k).2.SameWord (s'.freshMany k).2 := by
  induction k generalizing s s' with
  | zero => exact ⟨rfl, h⟩
  | succ k ih =>
    obtain ⟨hname, hrest⟩ := h.fresh
    obtain ⟨hnames, hlast⟩ := ih hrest
    simp only [NameSupply.freshMany, hname, hnames, true_and]
    exact hlast

/-! ### Several names -/

theorem freshMany_add (s : NameSupply) (k l : Nat) :
    s.freshMany (k + l) =
      ((s.freshMany k).1 ++ ((s.freshMany k).2.freshMany l).1, ((s.freshMany k).2.freshMany l).2) := by
  induction k generalizing s with
  | zero => simp [freshMany]
  | succ k ih => rw [Nat.add_right_comm, freshMany, ih s.fresh.2]; rfl

theorem freshMany_snd (s : NameSupply) (k : Nat) :
    (s.freshMany k).2 = { s with count := s.count + k } := by
  rw [← count_freshMany s k, ← (before_freshMany s k).stem]

/-- The names in the order of issue are those with the next numbers. -/
theorem freshMany_fst (s : NameSupply) (k : Nat) :
    (s.freshMany k).1 = (List.range k).map fun i : Nat => s.nameAt (s.count + i) := by
  induction k with
  | zero => rfl
  | succ k ih =>
    rw [freshMany_add, ih, List.range_succ, List.map_append]
    simp [freshMany, fresh, freshMany_snd, nameAt]

theorem mem_freshMany_iff {s : NameSupply} {k : Nat} {x : String} :
    x ∈ (s.freshMany k).1 ↔ s.Issued (s.freshMany k).2 x := by
  rw [freshMany_fst, List.mem_map, Issued, count_freshMany]
  constructor
  · rintro ⟨i, hi, rfl⟩
    rw [List.mem_range] at hi
    exact ⟨s.count + i, by omega, by omega, rfl⟩
  · rintro ⟨n, hn, hn', rfl⟩
    exact ⟨(n - s.count).toNat, List.mem_range.mpr (by omega), by congr 1; omega⟩

/-- A supply has `2 ^ 64` names, and then issues them again. -/
theorem nodup_freshMany_iff (s : NameSupply) (k : Nat) :
    (s.freshMany k).1.Nodup ↔ k ≤ 2 ^ 64 := by
  rw [freshMany_fst, List.Nodup, List.pairwise_map, List.pairwise_iff_getElem]
  simp only [List.length_range, List.getElem_range, ne_eq, nameAt_eq_iff]
  constructor
  · intro h
    refine Nat.le_of_not_lt fun hk => ?_
    exact h 0 (2 ^ 64) (by omega) (by omega) (by omega) (by omega)
  · intro hk i j hi hj hij heq
    omega

end MiniML.NameSupply
