/-
  MiniML/Text/EditDistance.lean
  =============================
  **The distance between two words** — the least number of insertions, deletions
  and replacements that turn one into the other.  It is computed row by row: a row
  holds the distances from what was read of the first word to all beginnings of
  the second.
-/

namespace MiniML.Text

variable {α : Type} [DecidableEq α]

/-- The rest of a row for one more letter `a`, from the row before it.  `left` is
    the entry that was found last. -/
def nextEntries (a : α) (left : Nat) : List α → List Nat → List Nat
  | b :: word, corner :: above :: row =>
    let entry := if a = b then corner else 1 + min corner (min above left)
    entry :: nextEntries a entry word (above :: row)
  | _, _ => []

/-- The row for one more letter. -/
def nextRow (word : List α) (row : List Nat) (a : α) : List Nat :=
  match row with
  | [] => []
  | first :: rest => (first + 1) :: nextEntries a (first + 1) word (first :: rest)

/-- The least number of changes of one letter between two words. -/
def editDistance (v w : List α) : Nat :=
  (v.foldl (nextRow w) (List.range (w.length + 1))).getLastD 0

end MiniML.Text
