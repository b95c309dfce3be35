/-
  MiniML/Text/Decimal.lean
  ========================
  **Decimals as 64-bit floats** — a sign, digits with at most one point among
  them, and an exponent of ten.  Only the whole part of the float is kept, and a
  decimal that is too large for a float is none.
-/
import MiniML.Text.Binary64
import MiniML.Text.CharClass
import MiniML.Text.Numeral

namespace MiniML.Decimal

/-- The number that decimal digits denote. -/
def natural? (digits : List Char) : Option Nat :=
  if digits ≠ [] ∧ digits.all Text.isAsciiDigit then
    some (digits.foldl (fun n c => 10 * n + (c.toNat - 0x30)) 0)
  else none

/-- A decimal as a sign and a quotient. -/
def quotient? (cs : List Char) : Option (Bool × Nat × Nat) := do
  let (negative, body) := Numeral.signed cs
  let mantissa := body.takeWhile fun c => c != 'e' && c != 'E'
  let exponent := body.drop mantissa.length
  let whole := mantissa.takeWhile (· != '.')
  let fraction := mantissa.drop whole.length
  let digits := whole ++ fraction.tail
  let n ← natural? digits
  let scale : Int ←
    if exponent == [] then some 0
    else do
      let (down, ds) := Numeral.signed exponent.tail
      let n ← natural? ds
      some (if down then -(n : Int) else n)
  let shift := scale - fraction.tail.length
  -- a number beyond these scales is as good as infinite or as zero
  if shift > 400 then some (negative, n * Nat.pow 10 400, 1)
  else if shift ≥ 0 then some (negative, n * Nat.pow 10 shift.toNat, 1)
  else if -shift > digits.length + 400 then some (negative, 0, 1)
  else some (negative, n, Nat.pow 10 (-shift).toNat)

/-- The whole part of the float that a decimal denotes. -/
def whole? (cs : List Char) : Option Int := do
  let (negative, p, q) ← quotient? cs
  let n := Binary64.whole p q
  if n ≥ Binary64.limit then none else some (if negative then -(n : Int) else n)

/-- Whether each underscore stands between two digits; `follows` tells whether the
    character before the text is a digit. -/
def separated (follows : Bool) : List Char → Bool
  | [] => true
  | c :: rest =>
    if c = '_' then follows && rest.head?.any Text.isAsciiDigit && separated false rest
    else separated (Text.isAsciiDigit c) rest

def joined (cs : List Char) : List Char := cs.filter (· != '_')

end MiniML.Decimal
