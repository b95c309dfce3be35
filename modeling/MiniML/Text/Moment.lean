/-
  MiniML/Text/Moment.lean
  =======================
  **Dates and times of day** — a text is compared with a layout field by field.
  Months have as many days as the calendar gives them, hours end before 24, and
  minutes and seconds before 60.
-/
import MiniML.Text.CharClass

namespace MiniML

/-- The fields of a layout.  A field with `two` has exactly two digits, any other
    has one or two. -/
inductive MomentField where
  | mark (c : Char)
  | year
  | month (two : Bool)
  | day (two : Bool)
  | hour (two : Bool)
  | minute (two : Bool)
  /-- Seconds and, if the text goes on with a point and digits, their fraction. -/
  | second (two : Bool)
  /-- `Z`, or a sign, hours, a colon and minutes. -/
  | zone
deriving DecidableEq, Repr

namespace Moment

def digit? (c : Char) : Option Nat :=
  if Text.isAsciiDigit c then some (c.toNat - 0x30) else none

/-- A number of two digits, or of one where `two` does not hold. -/
def number? (two : Bool) : List Char → Option (Nat × List Char)
  | [] => none
  | c :: rest => do
    let n ← digit? c
    match rest.head?.bind digit? with
    | some m => some (10 * n + m, rest.tail)
    | none => if two then none else some (n, rest)

/-- A number below a bound. -/
def below? (bound : Nat) (two : Bool) (cs : List Char) : Option (List Char) := do
  let (n, rest) ← number? two cs
  if n < bound then some rest else none

def year? : List Char → Option (Nat × List Char)
  | a :: b :: c :: d :: rest => do
    let a ← digit? a
    let b ← digit? b
    let c ← digit? c
    let d ← digit? d
    some (1000 * a + 100 * b + 10 * c + d, rest)
  | _ => none

/-- Passes over a fraction, if there is one. -/
def skipFraction (cs : List Char) : List Char :=
  match cs with
  | c :: d :: rest =>
    if (c == '.' || c == ',') && Text.isAsciiDigit d then rest.dropWhile Text.isAsciiDigit
    else cs
  | _ => cs

def zone? : List Char → Option (List Char)
  | 'Z' :: rest => some rest
  | sign :: rest => do
    if sign == '+' || sign == '-' then
      match ← below? 25 true rest with
      | ':' :: rest => below? 61 true rest
      | _ => none
    else none
  | [] => none

def isLeap (year : Nat) : Bool := year % 4 == 0 && (year % 100 != 0 || year % 400 == 0)

def daysOf (year month : Nat) : Nat :=
  if month = 2 then (if isLeap year then 29 else 28)
  else if month = 4 ∨ month = 6 ∨ month = 9 ∨ month = 11 then 30
  else 31

/-- Whether a text has a layout; `year` and `month` are the ones read so far. -/
def fits (year month : Nat) : List MomentField → List Char → Bool
  | [], cs => cs.isEmpty
  | .mark c :: layout, cs => cs.head? == some c && fits year month layout cs.tail
  | .year :: layout, cs =>
    match year? cs with
    | some (n, rest) => fits n month layout rest
    | none => false
  | .month two :: layout, cs =>
    match number? two cs with
    | some (n, rest) => 1 ≤ n && n ≤ 12 && fits year n layout rest
    | none => false
  | .day two :: layout, cs =>
    match number? two cs with
    | some (n, rest) => 1 ≤ n && n ≤ daysOf year month && fits year month layout rest
    | none => false
  | .hour two :: layout, cs =>
    match below? 24 two cs with
    | some rest => fits year month layout rest
    | none => false
  | .minute two :: layout, cs =>
    match below? 60 two cs with
    | some rest => fits year month layout rest
    | none => false
  | .second two :: layout, cs =>
    match below? 60 two cs with
    | some rest => fits year month layout (skipFraction rest)
    | none => false
  | .zone :: layout, cs =>
    match zone? cs with
    | some rest => fits year month layout rest
    | none => false

def fitsAny (layouts : List (List MomentField)) (cs : List Char) : Bool :=
  layouts.any fun layout => fits 0 1 layout cs

/-- A date: year, month and day with dashes between them. -/
def date (two : Bool) : List MomentField :=
  [.year, .mark '-', .month two, .mark '-', .day two]

/-- A time of day without seconds. -/
def shortTime (two : Bool) : List MomentField := [.hour two, .mark ':', .minute two]

def time (two : Bool) : List MomentField := shortTime two ++ [.mark ':', .second two]

end Moment

end MiniML
