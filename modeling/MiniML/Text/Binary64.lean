/-
  MiniML/Text/Binary64.lean
  =========================
  **The whole part of a 64-bit float** — a quotient of natural numbers is rounded
  to 53 binary digits, a tie to the even neighbour, and then cut to a whole
  number.  All of it is exact arithmetic on natural numbers.
-/

namespace MiniML.Binary64

/-- The natural number nearest to `p / q`; of two equally near ones the even one. -/
def nearest (p q : Nat) : Nat :=
  let n := p / q
  let twice := 2 * (p % q)
  if twice < q then n
  else if twice > q then n + 1
  else if n % 2 = 0 then n else n + 1

/-- The quotient `p / q` divided by the power of two with exponent `e`, as a numerator
    and a denominator. -/
def scaled (p q : Nat) (e : Int) : Nat × Nat :=
  if e ≥ 0 then (p, q * Nat.pow 2 e.toNat) else (p * Nat.pow 2 (-e).toNat, q)

/-- The exponent for which the quotient has 53 digits before the point. -/
def exponent (p q : Nat) : Int :=
  let e : Int := (p.log2 : Int) - q.log2 - 52
  let s := scaled p q e
  if s.1 / s.2 < 0x10000000000000 then e - 1 else e

/-- The whole part of the float nearest to `p / q`. -/
def whole (p q : Nat) : Nat :=
  if p = 0 ∨ q = 0 then 0
  else
    let e := exponent p q
    let s := scaled p q e
    let m := nearest s.1 s.2
    if e ≥ 0 then m * Nat.pow 2 e.toNat else m / Nat.pow 2 (-e).toNat

/-- No float is as large as this number. -/
def limit : Nat := Nat.pow 2 1024

end MiniML.Binary64
