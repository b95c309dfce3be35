/-
  MiniML/Text/Numeral.lean
  ========================
  **Numerals of 64-bit integers** — a sign, a base and digits.  The base is 16, 8 or
  2 after `0x`, `0o` or `0b`, in either case, it is 8 after any other leading zero,
  and otherwise 10.  Single underscores may stand between digits, and between the
  mark of a base and the first digit.

  Digits are read from the left, and a number that leaves the range of 64 bits is
  refused as too large before anything to its right is looked at.
-/
import MiniML.Text.Hex

namespace MiniML

inductive NumeralFault where
  | malformed
  | outOfRange
deriving DecidableEq, Repr

def int64? (n : Int) : Option Int64 :=
  if -0x8000000000000000 ≤ n ∧ n < 0x8000000000000000 then some (Int64.ofInt n) else none

namespace Numeral

/-- The value of a digit of any base up to 36. -/
def digitValue? (c : Char) : Option Nat :=
  if '0' ≤ c ∧ c ≤ '9' then some (c.toNat - 0x30)
  else if 'a' ≤ c ∧ c ≤ 'z' then some (c.toNat - 0x57)
  else if 'A' ≤ c ∧ c ≤ 'Z' then some (c.toNat - 0x37)
  else none

/-- The base that the letter after a leading zero stands for. -/
def baseOf? : Char → Option Nat
  | 'x' | 'X' => some 16
  | 'o' | 'O' => some 8
  | 'b' | 'B' => some 2
  | _ => none

/-- The base of a numeral without a sign, and its digits. -/
def split : List Char → Nat × List Char
  | '0' :: mark :: d :: ds =>
    match baseOf? mark with
    | some base => (base, d :: ds)
    | none => (8, mark :: d :: ds)
  | '0' :: ds => (8, ds)
  | ds => (10, ds)

/-- The number `n` followed by further digits.  Underscores are passed over. -/
def digits (base : Nat) : Nat → List Char → Except NumeralFault Nat
  | n, [] => .ok n
  | n, c :: rest =>
    if c = '_' then digits base n rest
    else
      match digitValue? c with
      | none => .error .malformed
      | some d =>
        if d ≥ base then .error .malformed
        else if base * n + d ≥ 0x10000000000000000 then .error .outOfRange
        else digits base (base * n + d) rest

/-- Whether each underscore stands between two digits; `follows` tells whether the
    character before the text counts as a digit. -/
def spaced (follows : Bool) : List Char → Bool
  | [] => true
  | '_' :: rest =>
    follows && rest.head?.any (fun c => (Text.hexValue? c).isSome) && spaced false rest
  | _ :: rest => spaced true rest

def magnitude (cs : List Char) : Except NumeralFault Nat :=
  let marked := (cs.tail.head?.bind baseOf?).isSome && cs.head? = some '0'
  match cs with
  | [] => .error .malformed
  | _ =>
    match digits (split cs).1 0 (split cs).2 with
    | .error fault => .error fault
    | .ok n =>
      if spaced marked (if marked then cs.drop 2 else cs) then .ok n else .error .malformed

/-- The sign of a numeral and what follows it. -/
def signed : List Char → Bool × List Char
  | '-' :: rest => (true, rest)
  | '+' :: rest => (false, rest)
  | rest => (false, rest)

end Numeral

/-- The integer that a numeral denotes. -/
def readInt64 (s : String) : Except NumeralFault Int64 :=
  let r := Numeral.signed s.toList
  match Numeral.magnitude r.2 with
  | .error fault => .error fault
  | .ok n =>
    match int64? (if r.1 then -(n : Int) else n) with
    | some value => .ok value
    | none => .error .outOfRange

end MiniML
