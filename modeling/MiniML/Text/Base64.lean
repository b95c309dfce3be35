/-
  MiniML/Text/Base64.lean
  =======================
  **Base 64** — four characters stand for three bytes.  The last group is filled up
  with `=`, and line breaks may stand anywhere.
-/

namespace MiniML.Base64

/-- The value of a character of the alphabet. -/
def value? (c : Char) : Option Nat :=
  if 'A' ≤ c ∧ c ≤ 'Z' then some (c.toNat - 0x41)
  else if 'a' ≤ c ∧ c ≤ 'z' then some (c.toNat - 0x61 + 26)
  else if '0' ≤ c ∧ c ≤ '9' then some (c.toNat - 0x30 + 52)
  else if c = '+' then some 62
  else if c = '/' then some 63
  else none

/-- The bytes of a text without line breaks. -/
def bytes? : List Char → Option (List UInt8)
  | [] => some []
  | a :: b :: c :: d :: rest => do
    let n := 64 * (← value? a) + (← value? b)
    let first := (n / 16).toUInt8
    if c = '=' then (if d = '=' ∧ rest = [] then some [first] else none)
    else
      let n := 64 * n + (← value? c)
      let second := (n / 4 % 256).toUInt8
      if d = '=' then (if rest = [] then some [first, second] else none)
      else
        let n := 64 * n + (← value? d)
        return first :: second :: (n % 256).toUInt8 :: (← bytes? rest)
  | _ => none

/-- The bytes that a text stands for. -/
def decode? (cs : List Char) : Option (List UInt8) :=
  bytes? (cs.filter fun c => c != '\n' && c != '\r')

end MiniML.Base64
