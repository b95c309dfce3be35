/-
  MiniML/FileTree.lean
  ====================
  **File trees** — a file system as a value: files with their contents,
  directories, and the directory that relative paths start from.  The commands are
  functions of such a value; only the outermost layer looks at a disk.

  A path is looked up by walking through its parts, so every directory on the way
  must exist.  `absolute`, in contrast, simplifies a path by its text alone.
-/
import MiniML.Source.Glyph

namespace MiniML

/-- An absolute path, as the names from the top directory down. -/
abbrev Path := List String

namespace Path

/-- The parts of a path between its slashes. -/
def parts (path : String) : List String :=
  (path.toList.splitOn '/').map String.ofList

/-- One part of a path taken from the directory `here`, reversed: nothing and `.`
    stay, `..` goes up, a name goes down. -/
def goBy (here : List String) (part : String) : List String :=
  if part = "" ∨ part = "." then here
  else if part = ".." then here.tail
  else part :: here

/-- The absolute path that a path denotes by its text, seen from `cwd`. -/
def absolute (cwd : Path) (path : String) : Path :=
  let start := if path.toList.head? = some '/' then [] else cwd.reverse
  ((parts path).foldl goBy start).reverse

def text (p : Path) : String :=
  if p = [] then "/" else String.join (p.map ("/" ++ ·))

/-- The extension of a path: what stands from the last dot of its last part on. -/
def extension (path : String) : String :=
  let last := (path.toList.reverse.takeWhile (· != '/'))
  let tail := last.takeWhile (· != '.')
  if tail.length = last.length then "" else String.ofList ('.' :: tail.reverse)

end Path

inductive Node where
  | file (content : List Glyph)
  | directory
deriving DecidableEq, Repr

inductive ReadFault where
  | notFound
  | notDirectory
  | isDirectory
deriving DecidableEq, Repr

def ReadFault.message (path : String) : ReadFault → String
  | .notFound => "open " ++ path ++ ": no such file or directory"
  | .notDirectory => "open " ++ path ++ ": not a directory"
  | .isDirectory => "read " ++ path ++ ": is a directory"

structure FileTree where
  /-- The directory that relative paths start from. -/
  cwd : Path
  files : List (Path × List Glyph)
  /-- Directories that need not hold anything. -/
  directories : List Path
deriving DecidableEq, Repr

namespace FileTree

/-- Whether a path is a directory: the current one, a listed one, or one above
    something that exists. -/
def isDirectory (tree : FileTree) (p : Path) : Bool :=
  p.isPrefixOf tree.cwd ||
    tree.directories.any (fun d => p.isPrefixOf d) ||
    tree.files.any (fun f => p.isPrefixOf f.1 && p != f.1)

/-- What stands at an absolute path.  Of two files at one path the later counts. -/
def node? (tree : FileTree) (p : Path) : Option Node :=
  match tree.files.reverse.find? (fun f => f.1 == p) with
  | some f => some (.file f.2)
  | none => if tree.isDirectory p then some .directory else none

def exists? (tree : FileTree) (p : Path) : Bool := (tree.node? p).isSome

/-- Walks from the directory `here`, reversed, through the parts of a path. -/
def walk (tree : FileTree) : List String → List String → Except ReadFault Node
  | here, [] =>
    match tree.node? here.reverse with
    | some node => .ok node
    | none => .error .notFound
  | here, part :: rest =>
    match tree.node? here.reverse with
    | some .directory => walk tree (Path.goBy here part) rest
    | some (.file _) => .error .notDirectory
    | none => .error .notFound

def read (tree : FileTree) (path : String) : Except ReadFault (List Glyph) :=
  if path = "" then .error .notFound
  else
    let start := if path.toList.head? = some '/' then [] else tree.cwd.reverse
    match tree.walk start (Path.parts path) with
    | .ok (.file content) => .ok content
    | .ok .directory => .error .isDirectory
    | .error fault => .error fault

end FileTree

end MiniML
