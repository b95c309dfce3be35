/-
  MiniML/Proofs/Eval/Allocation.lean
  ==================================
  **Fresh regions** — stores that come about by writes and allocations in any order,
  from the empty store.  A write may name any 64-bit word, below zero and far above the
  counter included.

  The counter stays above every region for as long as the last word is not a region
  (`Store.Counts`); a write to that word moves the counter to the other end of the range,
  and from then on allocation may hand out a region that exists.
-/
import MiniML.Proofs.Eval.Regions

namespace MiniML.Store

/-! ### Histories -/

/-- One operation on a store. -/
inductive Write
  | set (id : Int64) (t : Term)
  | alloc (t : Term)

def write (s : Store) : Write → Store
  | .set id t => s.set id t
  | .alloc t => (s.alloc t).2

def writeAll (s : Store) (ws : List Write) : Store := ws.foldl write s

/-- The regions that the allocations among the operations hand out, in order. -/
def allocated (s : Store) : List Write → List Int64
  | [] => []
  | .set id t :: ws => (s.set id t).allocated ws
  | .alloc t :: ws => (s.alloc t).1 :: (s.alloc t).2.allocated ws

/-- The region that an operation writes. -/
def Write.region (s : Store) : Write → Int64
  | .set id _ => id
  | .alloc _ => s.next

theorem knows_write {s : Store} {w : Write} {j : Int64} :
    (s.write w).Knows j ↔ w.region s = j ∨ s.Knows j := by
  cases w with
  | set => exact knows_set
  | alloc => exact knows_set

theorem keptBy_writeAll (s : Store) (ws : List Write) : s.KeptBy (s.writeAll ws) := by
  induction ws generalizing s with
  | nil => exact fun _ hj => hj
  | cons w ws ih => exact fun j hj => ih (s.write w) j (knows_write.mpr (.inr hj))

theorem not_knows_empty (i : Int64) : ¬ empty.Knows i := by
  simp [Knows, get?, empty]

/-! ### The counter -/

/-- The counter is not negative, and above every region. -/
structure Counts (s : Store) : Prop where
  next_nonneg : 0 ≤ s.next
  lt_next : ∀ i, s.Knows i → i < s.next

theorem counts_empty : empty.Counts :=
  ⟨Int64.le_refl 0, fun i hi => absurd hi (not_knows_empty i)⟩

/-- The word after another is above it, unless that is the last one. -/
theorem lt_add_one {i : Int64} (hi : i ≠ Int64.maxValue) : i < i + 1 := by
  have hmax := Int64.lt_of_le_of_ne (Int64.le_maxValue i) hi
  rw [Int64.lt_iff_toInt_lt, toInt_add_one hmax]
  exact Int.lt_succ _

/-- An operation on any region but the last leaves the counter above that region, and
    does not move it down. -/
theorem next_write {s : Store} {w : Write} (hw : w.region s ≠ Int64.maxValue) :
    w.region s < (s.write w).next ∧ s.next ≤ (s.write w).next := by
  suffices ∀ (i : Int64) (t : Term), i ≠ Int64.maxValue →
      i < (s.set i t).next ∧ s.next ≤ (s.set i t).next by
    cases w with
    | set i t => exact this i t hw
    | alloc t => exact this s.next t hw
  intro i t hi
  rw [set]
  split
  · rename_i hle
    exact ⟨lt_add_one hi, Int64.le_trans hle (Int64.le_of_lt (lt_add_one hi))⟩
  · rename_i hle
    exact ⟨Int64.not_le.mp hle, Int64.le_refl _⟩

/-- **What one operation keeps.** -/
theorem Counts.write {s : Store} {w : Write} (hs : s.Counts)
    (hw : w.region s ≠ Int64.maxValue) : (s.write w).Counts := by
  obtain ⟨habove, hmoved⟩ := next_write hw
  refine ⟨Int64.le_trans hs.next_nonneg hmoved, fun j hj => ?_⟩
  obtain rfl | hj := knows_write.mp hj
  · exact habove
  · exact Int64.lt_of_lt_of_le (hs.lt_next j hj) hmoved

/-- **What a history keeps**: if the last word does not become a region, the counter is
    above every region, and the regions that are allocated increase towards it. -/
theorem Counts.writeAll {s : Store} (hs : s.Counts) {ws : List Write}
    (hlast : ¬ (s.writeAll ws).Knows Int64.maxValue) :
    (s.writeAll ws).Counts ∧ s.next ≤ (s.writeAll ws).next ∧
      (∀ i ∈ s.allocated ws, s.next ≤ i ∧ i < (s.writeAll ws).next) ∧
      (s.allocated ws).Pairwise (· < ·) := by
  induction ws generalizing s with
  | nil => exact ⟨hs, Int64.le_refl _, by simp [allocated], .nil⟩
  | cons w ws ih =>
    -- What is written now is still a region at the end.
    have hw : w.region s ≠ Int64.maxValue := fun heq =>
      hlast (keptBy_writeAll (s.write w) ws _ (knows_write.mpr (.inl heq)))
    obtain ⟨habove, hmoved⟩ := next_write hw
    obtain ⟨hcounts, hnext, hbetween, hsorted⟩ := ih (hs.write hw) hlast
    have hbetween' : ∀ j ∈ (s.write w).allocated ws,
        s.next ≤ j ∧ j < (s.writeAll (w :: ws)).next := fun j hj =>
      ⟨Int64.le_trans hmoved (hbetween j hj).1, (hbetween j hj).2⟩
    refine ⟨hcounts, Int64.le_trans hmoved hnext, ?_⟩
    cases w with
    | set i t => exact ⟨hbetween', hsorted⟩
    | alloc t =>
      refine ⟨List.forall_mem_cons.mpr ⟨⟨Int64.le_refl _, ?_⟩, hbetween'⟩,
        List.pairwise_cons.mpr ⟨fun j hj => ?_, hsorted⟩⟩
      · exact Int64.lt_of_lt_of_le habove hnext
      · exact Int64.lt_of_lt_of_le habove (hbetween j hj).1

/-! ### Evaluation -/

theorem writeAll_append (s : Store) (ws ws' : List Write) :
    s.writeAll (ws ++ ws') = (s.writeAll ws).writeAll ws' :=
  List.foldl_append

/-- A step performs at most one operation. -/
theorem step_writeAll {c d : Config} (h : c.step? = some d) :
    ∃ ws, d.store = c.store.writeAll ws := by
  obtain hsame | ⟨-, i, v, hset⟩ := (Reduces.of_step h).store_eq_or_set
  · exact ⟨[], hsame⟩
  · exact ⟨[.set i v], hset⟩

theorem chain_writeAll {c d : Config} {cs : List Config} (h : Chain (c :: cs))
    (hd : d ∈ c :: cs) : ∃ ws, d.store = c.store.writeAll ws := by
  induction cs generalizing c with
  | nil => exact ⟨[], congrArg Config.store (List.mem_singleton.mp hd)⟩
  | cons e cs ih =>
    obtain rfl | hd := List.mem_cons.mp hd
    · exact ⟨[], rfl⟩
    · obtain ⟨hstep, hrest⟩ := List.isChain_cons_cons.mp h
      obtain ⟨ws, hws⟩ := step_writeAll hstep
      obtain ⟨ws', hws'⟩ := ih hrest hd
      exact ⟨ws ++ ws', by rw [hws', hws, writeAll_append]⟩

/-- **Evaluation has histories**: every store on the way, whatever the terms mention,
    comes by operations from the store at the start. -/
theorem trail_writeAll {s : Store} {jobs : List (Term × Int64)} {c : Config}
    (hc : c ∈ trail s jobs) : ∃ ws, c.store = s.writeAll ws := by
  induction jobs generalizing s with
  | nil => cases hc
  | cons job rest ih =>
    obtain ⟨t, maxSteps⟩ := job
    obtain ⟨cs, hcs, hchain, hlast, -⟩ := chain_configurations t s maxSteps
    rw [trail, hcs] at hc
    obtain hc | hc := List.mem_append.mp hc
    · exact chain_writeAll hchain hc
    · obtain ⟨ws, hws⟩ := chain_writeAll hchain (List.mem_of_getLast? hlast)
      obtain ⟨ws', hws'⟩ := ih hc
      exact ⟨ws ++ ws', by rw [hws', hws, writeAll_append]; rfl⟩

/-- The counter of an evaluation is above every region, if the last word is none.  No
    bound on the allocations is needed for that. -/
theorem trail_counts {jobs : List (Term × Int64)} {c : Config} (hc : c ∈ trail .empty jobs)
    (hlast : ¬ c.store.Knows Int64.maxValue) : c.store.Counts := by
  obtain ⟨ws, hws⟩ := trail_writeAll hc
  rw [hws] at hlast ⊢
  exact (counts_empty.writeAll hlast).1

/-! ### Fresh regions -/

theorem allocated_append (s : Store) (ws ws' : List Write) :
    s.allocated (ws ++ ws') = s.allocated ws ++ (s.writeAll ws).allocated ws' := by
  induction ws generalizing s with
  | nil => rfl
  | cons w ws ih =>
    cases w with
    | set i t => exact ih (s.set i t)
    | alloc t => exact congrArg ((s.alloc t).1 :: ·) (ih (s.alloc t).2)

/-- **Allocation.**  Let a store come about from the empty one by any operations.  An
    allocation binds the region that it hands out and leaves the others alone.  The
    counter is above every region exactly if the last word is not a region; and then the
    region that is handed out did not exist, and is above all that were handed out
    before. -/
theorem alloc_is_fresh (ws : List Write) (t : Term) :
    let s := empty.writeAll ws
    let (i, s') := s.alloc t
    s'.get? i = some t ∧ (∀ j, j ≠ i → s'.get? j = s.get? j) ∧
      ((∀ j, s.Knows j → j < s.next) ↔ ¬ s.Knows Int64.maxValue) ∧
      (¬ s.Knows Int64.maxValue → ¬ s.Knows i ∧
        (empty.allocated (ws ++ [.alloc t])).Pairwise (· < ·)) := by
  intro s
  change (s.set s.next t).get? s.next = some t ∧
    (∀ j, j ≠ s.next → (s.set s.next t).get? j = s.get? j) ∧ _
  refine ⟨by rw [get?_set, if_pos rfl], fun j hj => ?_, ⟨fun habove hlast => ?_, fun hlast => ?_⟩,
    fun hlast => ?_⟩
  · rw [get?_set, if_neg (Ne.symm hj)]
  · exact Int64.not_le.mpr (habove _ hlast) (Int64.le_maxValue _)
  · exact (counts_empty.writeAll hlast).1.lt_next
  · obtain ⟨hcounts, -, hbetween, hsorted⟩ := counts_empty.writeAll hlast
    refine ⟨fun hknown => Int64.lt_irrefl (hcounts.lt_next _ hknown), ?_⟩
    rw [allocated_append, List.pairwise_append]
    refine ⟨hsorted, List.pairwise_singleton _ _, fun i hi j hj => ?_⟩
    rw [List.mem_singleton.mp hj]
    exact (hbetween i hi).2

/-- A region below zero, one in the middle, and one three below the end. -/
theorem alloc_is_fresh_farAhead :
    let ws := [.set (-3) .nil, .alloc (.int 1), .set 9223372036854775804 (.int 2), .alloc .nil]
    let s := empty.writeAll ws
    empty.allocated (ws ++ [.alloc .unit]) = [0, 9223372036854775805, 9223372036854775806] ∧
      ¬ s.Knows Int64.maxValue ∧ ¬ s.Knows (s.alloc .unit).1 := by
  intro ws s
  have hlast : ¬ s.Knows Int64.maxValue := by
    rw [Knows]
    decide
  exact ⟨by decide, hlast, ((alloc_is_fresh ws .unit).2.2.2 hlast).1⟩

/-- After a write to the last word the next region is the first word, a second time as
    well: the last allocation overwrites what the one before it stored. -/
theorem alloc_not_fresh_behindLast :
    let ws := [.set Int64.maxValue (.int 1), .alloc (.int 2), .set Int64.maxValue (.int 3)]
    let s := empty.writeAll ws
    (s.alloc (.int 4)).1 = Int64.minValue ∧ s.get? Int64.minValue = some (.int 2) ∧
      (s.alloc (.int 4)).2.get? Int64.minValue = some (.int 4) ∧
      empty.allocated (ws ++ [.alloc (.int 4)]) = [Int64.minValue, Int64.minValue] ∧
      ¬ ∀ j, s.Knows j → j < s.next := by
  intro ws s
  refine ⟨by decide, by decide, by decide, by decide, fun habove => ?_⟩
  have hlast : s.Knows Int64.maxValue := by
    rw [Knows]
    decide
  exact absurd (habove _ hlast) (by decide)

end MiniML.Store
