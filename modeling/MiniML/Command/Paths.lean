/-
  MiniML/Command/Paths.lean
  =========================
  **The paths of a command line** — all that a command can look at: the files that it
  names, the places where settings are searched for, and the directories on the way.
  A program that looks these paths up on a disk and puts what it finds into a file tree
  has all that the command needs.
-/
import MiniML.Command.Arguments
import MiniML.Settings.Load

namespace MiniML

namespace Path

/-- A directory, given by its names from the inside out, and all those above it. -/
def ancestors : List String → List Path
  | [] => [[]]
  | name :: above => (name :: above).reverse :: ancestors above

/-- All that is passed on the way from the directory `here`, reversed, through the
    parts of a path. -/
def stations : List String → List String → List Path
  | here, [] => [here.reverse]
  | here, part :: rest => here.reverse :: stations (goBy here part) rest

def onTheWay (cwd : Path) (path : String) : List Path :=
  stations (if path.toList.head? = some '/' then [] else cwd.reverse) (parts path)

end Path

namespace Invocation

/-- The places at which a search for settings looks. -/
def searched (cwd : Path) : List Path :=
  (Path.ancestors cwd.reverse).flatMap fun dir =>
    (".git" :: Settings.fileNames).map fun name => dir ++ [name]

/-- The paths that an invocation may look at. -/
def paths (cwd : Path) : Invocation → List Path
  | .help => []
  | .perform action o =>
    let settings := if o.config = "" then searched cwd else Path.onTheWay cwd o.config
    match action with
    | .run file => settings ++ Path.onTheWay cwd file
    | _ => settings

end Invocation

end MiniML
