/-
  MiniML/Settings/Load.lean
  =========================
  **Finding and loading settings** — a settings file is written in TOML or YAML, as
  its extension says.  The search goes from a directory upwards and takes the first
  file that it meets, `plambda.toml` before `plambda.yaml`; it does not leave the
  repository, that is, it does not go above a directory that holds `.git`.  A file
  that is met but cannot be used ends the search with its error.
-/
import MiniML.FileTree
import MiniML.Settings.Toml
import MiniML.Settings.Yaml

namespace MiniML

inductive SettingsError where
  | read (path : String) (fault : ReadFault)
  /-- The file cannot be opened for decoding. -/
  | open (path : String) (fault : ReadFault)
  /-- The file is malformed, or a setting has a value of the wrong kind. -/
  | decode (path : String)
  | unsupported (path : String)
  | invalid (path : String) (fault : SettingsFault)
deriving DecidableEq, Repr

def SettingsError.message : SettingsError → String
  | .read path fault => "read " ++ path ++ ": " ++ fault.message path
  | .open path fault => "decode " ++ path ++ ": " ++ fault.message path
  | .decode path => "decode " ++ path ++ ": malformed settings"
  | .unsupported path => "unsupported config format: " ++ path
  | .invalid path fault => "invalid config " ++ path ++ ": " ++ fault.message

inductive SettingsFormat where
  | toml
  | yaml
deriving DecidableEq, Repr

namespace Settings

/-- The format that the extension of a path stands for. -/
def formatOf? (path : String) : Option SettingsFormat :=
  match Path.extension path with
  | ".toml" => some .toml
  | ".yaml" | ".yml" => some .yaml
  | _ => none

/-- The characters of a content without stray bytes. -/
def chars? (content : List Glyph) : Option (List Char) :=
  content.mapM fun
    | .char c => some c
    | .stray _ => none

def declared? (format : SettingsFormat) (content : List Glyph) : Option Declared := do
  let cs ← chars? content
  match format with
  | .toml => Toml.declared? cs
  | .yaml => Yaml.declared? cs

/-- Loads the settings file at a path; `decode` says what a content declares. -/
def loadWith (decode : SettingsFormat → List Glyph → Option Declared) (tree : FileTree)
    (path : String) : Except SettingsError Settings :=
  match formatOf? path with
  | none => .error (.unsupported path)
  | some format =>
    match tree.read path with
    | .error fault =>
      .error (match format with
        -- one of the decoders opens the file by itself
        | .toml => .open path fault
        | .yaml => .read path fault)
    | .ok content =>
      match decode format content with
      | none => .error (.decode path)
      | some declared =>
        match declared.settings with
        | .error fault => .error (.invalid path fault)
        | .ok settings => .ok settings

def load (tree : FileTree) (path : String) : Except SettingsError Settings :=
  loadWith declared? tree path

/-- The names of settings files, the preferred one first. -/
def fileNames : List String := ["plambda.toml", "plambda.yaml"]

/-- The first settings file that a directory holds. -/
def fileIn? (tree : FileTree) (dir : Path) : Option Path :=
  (fileNames.map fun name => dir ++ [name]).find? tree.exists?

/-- Searches a directory, given by its names from the inside out, and those above
    it. -/
def findFrom (tree : FileTree) (here : List String) : Option Path :=
  match fileIn? tree here.reverse with
  | some file => some file
  | none =>
    -- a repository ends the search, but its own directory still counts
    if tree.exists? (here.reverse ++ [".git"]) then none
    else
      match here with
      | [] => none
      | _ :: above => findFrom tree above

/-- The settings that hold in a directory, and the path of the file that they come
    from; without a file, the defaults. -/
def findWith (decode : SettingsFormat → List Glyph → Option Declared) (tree : FileTree)
    (dir : String) : Except SettingsError (Option String × Settings) :=
  match findFrom tree (Path.absolute tree.cwd dir).reverse with
  | none => .ok (none, {})
  | some file =>
    match loadWith decode tree (Path.text file) with
    | .ok settings => .ok (some (Path.text file), settings)
    | .error e => .error e

def find (tree : FileTree) (dir : String) : Except SettingsError (Option String × Settings) :=
  findWith declared? tree dir

end Settings

end MiniML
