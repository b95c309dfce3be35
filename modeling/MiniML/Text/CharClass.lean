/-
  MiniML/Text/CharClass.lean
  ==========================
  **Classes of characters** — letters, decimal digits, white space and printable
  characters over all of Unicode.  Below U+0080 the classes are given by ranges
  of ASCII, above it by the tables of the general categories.
-/
import MiniML.Text.Table.Letter
import MiniML.Text.Table.Digit
import MiniML.Text.Table.Graphic

namespace MiniML.Text

/-- Whether a code point lies in one of the ranges. -/
def inRanges (ranges : List (Nat × Nat)) (n : Nat) : Bool :=
  ranges.any fun r => r.1 ≤ n && n ≤ r.2

def isAsciiDigit (c : Char) : Bool := '0' ≤ c && c ≤ '9'

/-- A letter: of ASCII, or of general category `L`. -/
def isLetter (c : Char) : Bool :=
  if c.toNat < 0x80 then ('a' ≤ c && c ≤ 'z') || ('A' ≤ c && c ≤ 'Z')
  else inRanges letterRanges c.toNat

/-- A decimal digit: of ASCII, or of general category `Nd`. -/
def isDigit (c : Char) : Bool :=
  if c.toNat < 0x80 then isAsciiDigit c else inRanges digitRanges c.toNat

/-- White space: the blanks and line ends of ASCII, the next-line character, and
    every space, line and paragraph separator. -/
def isSpace (c : Char) : Bool :=
  inRanges
    [(0x09, 0x0D), (0x20, 0x20), (0x85, 0x85), (0xA0, 0xA0), (0x1680, 0x1680),
     (0x2000, 0x200A), (0x2028, 0x2029), (0x202F, 0x202F), (0x205F, 0x205F), (0x3000, 0x3000)]
    c.toNat

/-- A printable character: the ASCII space, or a character with a visible form. -/
def isPrintable (c : Char) : Bool :=
  if c.toNat < 0x80 then ' ' ≤ c && c ≤ '~' else inRanges graphicRanges c.toNat

theorem isLetter_eq_false_of_isAsciiDigit {c : Char} (h : isAsciiDigit c = true) :
    isLetter c = false := by
  simp only [isAsciiDigit, Bool.and_eq_true, decide_eq_true_eq, Char.le_def] at h
  obtain ⟨h₀, h₉⟩ := h
  have hv : c.val.toNat ≤ 57 := UInt32.le_iff_toNat_le.mp h₉
  have hlt : c.toNat < 0x80 := by
    show c.val.toNat < 0x80
    omega
  have ha : ¬ ('a' ≤ c) := fun h => by
    have : (97 : Nat) ≤ c.val.toNat := UInt32.le_iff_toNat_le.mp (Char.le_def.mp h)
    omega
  have hA : ¬ ('A' ≤ c) := fun h => by
    have : (65 : Nat) ≤ c.val.toNat := UInt32.le_iff_toNat_le.mp (Char.le_def.mp h)
    omega
  simp [isLetter, hlt, ha, hA]

end MiniML.Text
