/-
  MiniML/Name.lean
  ================
  **Names** — variables of terms and of types are strings.  This file holds the
  three things that the rest of the library does with them: finite sets
  (`NameSet`), renamings of bound names (`Renaming`), and supplies of fresh names
  (`NameSupply`).

  Sets are listed in the order of their characters' code points.  A supply is a
  stem and a count; the names that it issues are the stem followed by the count
  as a 64-bit word in decimal.  The word wraps around, so a supply that has gone
  through all words issues its names again.
-/
import Std.Data.ExtTreeMap
import Std.Data.ExtTreeSet

namespace MiniML

/-- A finite set of names, listed in increasing order. -/
abbrev NameSet := Std.ExtTreeSet String

/-- A finite map from bound names to the names that replace them. -/
abbrev Renaming := Std.ExtTreeMap String String

/-- The decimal numeral of a 64-bit integer, with a leading `-` below zero. -/
def decimal (n : Int64) : String := toString n.toInt

/-! ### Sets -/

def NameSet.ofNames (names : List String) : NameSet :=
  names.foldl (fun s x => s.insert x) ∅

theorem NameSet.mem_foldl_insert (names : List String) (s : NameSet) (x : String) :
    x ∈ names.foldl (fun s y => s.insert y) s ↔ x ∈ names ∨ x ∈ s := by
  induction names generalizing s with
  | nil => simp
  | cons y ys ih =>
    simp only [List.foldl_cons, ih, Std.ExtTreeSet.mem_insert, List.mem_cons,
      Std.LawfulEqCmp.compare_eq_iff_eq]
    constructor
    · rintro (h | h | h)
      · exact .inl (.inr h)
      · exact .inl (.inl h.symm)
      · exact .inr h
    · rintro ((h | h) | h)
      · exact .inr (.inl h.symm)
      · exact .inl h
      · exact .inr (.inr h)

@[simp] theorem NameSet.mem_ofNames (names : List String) (x : String) :
    x ∈ NameSet.ofNames names ↔ x ∈ names := by
  simp [NameSet.ofNames, NameSet.mem_foldl_insert]

/-! ### Fresh names -/

/-- A supply of fresh names: a stem and the number of the next name.  The number
    is kept in full; `next` is the word that stands for it in a name. -/
structure NameSupply where
  stem : String
  count : Int := 0
deriving DecidableEq, Repr

namespace NameSupply

def next (s : NameSupply) : Int64 := .ofInt s.count

/-- A supply for the binders of terms; the empty stem stands for `_v`. -/
def forBinders (stem : String) (next : Int64) : NameSupply :=
  ⟨if stem = "" then "_v" else stem, next.toInt⟩

/-- A supply for type variables; the empty stem stands for `T`. -/
def forTypes (stem : String) (next : Int64) : NameSupply :=
  ⟨if stem = "" then "T" else stem, next.toInt⟩

def nameAt (s : NameSupply) (n : Int) : String := s.stem ++ decimal (.ofInt n)

def fresh (s : NameSupply) : String × NameSupply :=
  (s.nameAt s.count, { s with count := s.count + 1 })

def freshMany (s : NameSupply) : Nat → List String × NameSupply
  | 0 => ([], s)
  | count + 1 =>
    let rest := s.fresh.2.freshMany count
    (s.fresh.1 :: rest.1, rest.2)

def reset (s : NameSupply) : NameSupply := { s with count := 0 }

@[simp] theorem stem_fresh (s : NameSupply) : s.fresh.2.stem = s.stem := rfl

@[simp] theorem count_fresh (s : NameSupply) : s.fresh.2.count = s.count + 1 := rfl

/-- Issuing a name moves the word by one, with wrap-around. -/
@[simp] theorem next_fresh (s : NameSupply) : s.fresh.2.next = s.next + 1 := by
  simp [next, Int64.ofInt_add]

@[simp] theorem length_freshMany (s : NameSupply) (count : Nat) :
    (s.freshMany count).1.length = count := by
  induction count generalizing s with
  | zero => rfl
  | succ count ih => simp [freshMany, ih]

end NameSupply

end MiniML
