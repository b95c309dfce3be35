/-
  MiniML/Settings/Basic.lean
  ==========================
  **Settings** — the step bound, the unification budget, the use of colour and the
  debug switch, and how they come out of what a settings file declares.  A file
  may leave any of them out; a number of zero and an empty text count as left out.
-/
import MiniML.Name
import MiniML.Text.Quoted

namespace MiniML

/-- When reports are coloured. -/
inductive ColorMode where
  /-- On a terminal only. -/
  | auto
  | always
  | never
deriving DecidableEq, Repr

def ColorMode.ofText? : String → Option ColorMode
  | "auto" => some .auto
  | "always" => some .always
  | "never" => some .never
  | _ => none

def ColorMode.text : ColorMode → String
  | .auto => "auto"
  | .always => "always"
  | .never => "never"

theorem ColorMode.ofText?_text (m : ColorMode) : ColorMode.ofText? m.text = some m := by
  cases m <;> rfl

structure Settings where
  maxSteps : Int64 := 1000
  unifyFuel : Int64 := 1000
  color : ColorMode := .auto
  debug : Bool := false
deriving DecidableEq, Repr

structure Declared where
  maxSteps : Int64 := 0
  unifyFuel : Int64 := 0
  color : String := ""
  debug : Bool := false
deriving DecidableEq, Repr

inductive SettingsFault where
  | negativeSteps (n : Int64)
  | negativeFuel (n : Int64)
  | unknownColor (name : String)
deriving DecidableEq, Repr

def SettingsFault.message : SettingsFault → String
  | .negativeSteps n => "max_steps must not be negative: " ++ decimal n
  | .negativeFuel n => "unify_fuel must not be negative: " ++ decimal n
  | .unknownColor c => "color must be auto, always or never: " ++ Text.quoted c

/-- A number of zero stands for the default. -/
def orDefault (n default : Int64) : Int64 := if n = 0 then default else n

/-- The settings that a declaration stands for.  The step bound is examined first,
    then the budget, then the colour. -/
def Declared.settings (d : Declared) : Except SettingsFault Settings :=
  if d.maxSteps < 0 then .error (.negativeSteps d.maxSteps)
  else if d.unifyFuel < 0 then .error (.negativeFuel d.unifyFuel)
  else
    match ColorMode.ofText? (if d.color = "" then "auto" else d.color) with
    | none => .error (.unknownColor d.color)
    | some color =>
      .ok ⟨orDefault d.maxSteps 1000, orDefault d.unifyFuel 1000, color, d.debug⟩

end MiniML
