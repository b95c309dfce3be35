/-
  MiniML/Command/Style.lean
  =========================
  **Coloured reports** — the parts of a report are painted by their role.  Colour
  is a matter of the terminal's control sequences around a text, so a report
  without colour is the same text without them.
-/
import MiniML.Settings.Basic

namespace MiniML

inductive Role where
  | label
  | term
  | type
  | status
deriving DecidableEq, Repr

/-- The codes of a role: bold or not, and a colour out of 256. -/
def Role.codes : Role → String
  | .label => "1;38;5;63"
  | .term => "38;5;249"
  | .type => "38;5;117"
  | .status => "38;5;212"

/-- Whether reports are coloured in a mode, on a terminal or elsewhere. -/
def ColorMode.colors (terminal : Bool) : ColorMode → Bool
  | .auto => terminal
  | .always => true
  | .never => false

structure Style where
  colored : Bool
deriving DecidableEq, Repr

def Style.paint (style : Style) (role : Role) (text : String) : String :=
  if style.colored then "\x1b[" ++ role.codes ++ "m" ++ text ++ "\x1b[m" else text

/-- Without colour a text is written as it is. -/
@[simp] theorem Style.paint_plain (role : Role) (text : String) :
    (Style.mk false).paint role text = text := rfl

end MiniML
