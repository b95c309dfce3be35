/-
  MiniML/Eval/Store.lean
  ======================
  **Stores** — the contents of the regions that evaluation has allocated, and the
  id that the next allocation receives.  Ids are 64-bit words; writing to an id
  that is not below the counter moves the counter past it, with wrap-around.
-/
import MiniML.Term.Basic

namespace MiniML

/-- A finite map from region ids to contents, and the id of the next region. -/
structure Store where
  cells : Std.ExtTreeMap Int64 Term := ∅
  next : Int64 := 0
deriving DecidableEq

namespace Store

def empty : Store := {}

def get? (s : Store) (id : Int64) : Option Term := s.cells[id]?

def size (s : Store) : Nat := s.cells.size

def toList (s : Store) : List (Int64 × Term) := s.cells.toList

/-- Writes a region, whether it exists or not. -/
def set (s : Store) (id : Int64) (t : Term) : Store :=
  -- behind the last word the counter starts again below zero
  ⟨s.cells.insert id t, if s.next ≤ id then id + 1 else s.next⟩

/-- Allocates the next region. -/
def alloc (s : Store) (t : Term) : Int64 × Store := (s.next, s.set s.next t)

def ofWrites (writes : List (Int64 × Term)) : Store :=
  writes.foldl (fun s w => s.set w.1 w.2) empty

theorem get?_set (s : Store) (i j : Int64) (t : Term) :
    (s.set i t).get? j = if i = j then some t else s.get? j := by
  simp [get?, set, Std.ExtTreeMap.getElem?_insert]

/-- What holds of all contents and of what is written holds of all contents after a
    write. -/
theorem forall_set {P : Term → Prop} {s : Store} (hs : ∀ {i v}, s.get? i = some v → P v)
    {t : Term} (ht : P t) {i j : Int64} {v : Term} (h : (s.set i t).get? j = some v) : P v := by
  rw [get?_set] at h
  split at h
  · cases h
    exact ht
  · exact hs h

/-- A write below the counter leaves it alone. -/
theorem next_set_of_lt {s : Store} {i : Int64} (h : i.toInt < s.next.toInt) (t : Term) :
    (s.set i t).next = s.next := by
  refine if_neg fun hle => ?_
  have := Int64.le_iff_toInt_le.mp hle
  omega

/-- Allocation moves the counter by one. -/
@[simp] theorem next_alloc (s : Store) (t : Term) : (s.alloc t).2.next = s.next + 1 := by
  simp [alloc, set]

/-- Below the last word, ids count like numbers. -/
theorem toInt_add_one {i : Int64} (h : i < Int64.maxValue) : (i + 1).toInt = i.toInt + 1 := by
  have hlow := i.le_toInt
  have hroom := Int64.lt_iff_toInt_lt.mp h
  rw [Int64.toInt_maxValue] at hroom
  rw [Int64.toInt_add, Int64.toInt_one, Int.bmod_eq_of_le (by omega) (by omega)]

end Store

end MiniML
