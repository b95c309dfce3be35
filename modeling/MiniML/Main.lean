/-
  MiniML/Main.lean
  ================
  **The program** — reads the command line, looks up the paths that it may need, and
  writes what the command leaves behind: its output, its log, and its error.
-/
import MiniML.Command.Paths
import MiniML.Command.Perform

namespace MiniML.Program

/-- An entry of the log on one line. -/
def logLine : LogEntry → String
  | .step n t regions =>
    "step n=" ++ toString n ++ " term=" ++ Text.quoted t.text ++ " regions=" ++ toString regions
  | .statement index binder type steps status =>
    "statement index=" ++ toString index ++ " name=" ++ Text.quoted (binder.getD "") ++
      " type=" ++ Text.quoted type.text ++ " steps=" ++ toString steps ++
      " status=" ++ Text.quoted status.text

/-- The result of an action that may fail. -/
def attempt {α : Type} (action : IO α) : IO (Option α) := do
  try
    return some (← action)
  catch _ => return none

/-- What stands at a path of the disk.  What can be opened and not read is a
    directory. -/
def lookUp (path : Path) : IO (Option Node) := do
  match ← attempt (IO.FS.Handle.mk path.text .read) with
  | none => return none
  | some _ =>
    match ← attempt (IO.FS.readBinFile path.text) with
    | some bytes => return some (.file (Utf8.decode bytes.toList))
    | none => return some .directory

/-- The part of the disk that consists of the given paths. -/
def snapshot (cwd : Path) (paths : List Path) : IO FileTree := do
  let mut tree : FileTree := { cwd := cwd, files := [], directories := [] }
  for path in paths do
    match ← lookUp path with
    | some (.file content) => tree := { tree with files := (path, content) :: tree.files }
    | some .directory => tree := { tree with directories := path :: tree.directories }
    | none => pure ()
  return tree

def run (args : List String) : IO UInt32 := do
  let cwd := Path.absolute [] (← IO.currentDir).toString
  let paths := match Invocation.ofArguments args with
    | .ok i => i.paths cwd
    | .error _ => []
  let stdout ← IO.getStdout
  let stderr ← IO.getStderr
  let t := Command.performLine (← stdout.isTty) (← snapshot cwd paths) args
  stdout.putStr t.output
  for entry in t.log do
    stderr.putStrLn (logLine entry)
  match t.error with
  | some e =>
    stderr.putStrLn e.message
    return 1
  | none => return 0

end MiniML.Program

def main (args : List String) : IO UInt32 := MiniML.Program.run args
