import TreeSketch.Settings.Decode
import TreeSketch.Settings.Key
import TreeSketch.Toml.Document

/-!
# Where settings come from

Settings come in layers: the defaults, then files, each of which wins over those before it, and last the values
that are pinned at key paths and win over every file. A `Loader` says which files and which pins there are;
`Loader.load` reads the files and takes the settings of the program from all layers together
(`Settings.ofLayers`).
-/

namespace TreeSketch

/-- A file of settings. -/
structure SettingsFile where
  path : String
  /-- It is an error if there is no such file. -/
  required : Bool
deriving Repr, DecidableEq

namespace SettingsFile

/-- What the name of a settings file ends in when the path leaves that out. -/
def extension : String := ".toml"

section

variable {m : Type → Type} [Monad m] [FileAccess m]

/-- The path that the file is found at: the path as it is, or else with the usual extension behind its last
name. -/
def find? (file : SettingsFile) : m (Option String) := do
  if ← isFile file.path then return some file.path
  else
    let moves := Path.moves file.path
    match moves.getLast? with
    | some (.into name) =>
      let other := Path.ofSteps (Path.isAbsolute file.path)
        (moves.dropLast ++ [.into (name ++ extension)])
      return if ← isFile other then some other else none
    | _ => return none

/-- The fields that the file contributes. A file that may be missing contributes nothing if it is missing or
no text. -/
def read (file : SettingsFile) : m (Except SettingsError (List (String × Setting))) := do
  match ← file.find? with
  | none => return if file.required then .error (.missingFile file.path) else .ok []
  | some path =>
    match ← readText path with
    | .error cause => return if file.required then .error (.unreadableFile cause) else .ok []
    | .ok text =>
      let origin := Path.ofSteps (Path.isAbsolute path) (Path.moves path)
      match Toml.parse? (some origin) text with
      | none => return .error (.badFile origin)
      | some fields => return .ok fields

/-- The fields that files contribute, one layer for each file. -/
def readAll : List SettingsFile → m (Except SettingsError (List (List (String × Setting))))
  | [] => return .ok []
  | file :: rest => do
    match ← file.read with
    | .error error => return .error error
    | .ok fields =>
      match ← readAll rest with
      | .error error => return .error error
      | .ok layers => return .ok (fields :: layers)

end

end SettingsFile

/-- A setting that is pinned: its key path and its value, which may be a table or an array. -/
structure Pin where
  path : List KeyStep
  value : Setting
deriving Repr

namespace Setting

/-- The value that a key has by default. -/
private def usual (key : String) (value : Scalar) : String × Setting :=
  (key, scalar none value)

/-- The settings that hold where nothing else is said. -/
def defaults : Setting :=
  table none
    [("create", table none
      [usual "output" (.string "."), usual "create_files" (.boolean true),
        usual "dry_run" (.boolean false)]),
      ("diagram", table none [usual "all_trees" (.boolean false)]),
      ("log", table none [usual "filter" (.string "warn")])]

/-- Lays the fields of a file over a setting. A key that is a key path means the setting at its end. -/
def layFields (below : Setting) (fields : List (String × Setting)) : Setting :=
  fields.foldl
    (fun below (key, value) => assign value ((KeyPath.parse? key).getD [.name key]) below) below

/-- Puts a pinned value at the end of its key path. -/
def layPin (below : Setting) (pin : Pin) : Setting :=
  assign pin.value pin.path below

end Setting

/-- The settings of the program from the fields of files and pinned settings, both in the order in which they
are laid over the defaults. -/
def Settings.ofLayers (layers : List (List (String × Setting))) (pins : List Pin) :
    Except SettingsError Settings :=
  Settings.decode (pins.foldl Setting.layPin (layers.foldl Setting.layFields .defaults))

/-- The files that settings come from, and the settings that are pinned, both in the order in which they
count. -/
structure Loader where
  files : List SettingsFile
  pins : List Pin
deriving Repr

namespace Loader

/-- Nothing but the defaults. -/
def empty : Loader :=
  ⟨[], []⟩

/-- Adds a file that has to be there. -/
def withFile (loader : Loader) (path : String) : Loader :=
  { loader with files := loader.files ++ [⟨path, true⟩] }

/-- Adds a file that may be missing. -/
def withOptionalFile (loader : Loader) (path : String) : Loader :=
  { loader with files := loader.files ++ [⟨path, false⟩] }

/-- Pins a setting. What was pinned at the same key path before no longer counts. -/
def pin (loader : Loader) (path : List KeyStep) (value : Setting) : Loader :=
  { loader with pins := loader.pins.filter (·.path ≠ path) ++ [⟨path, value⟩] }

/-- Pins the setting of a key path that is given as text. -/
def pinKey (loader : Loader) (key : String) (value : Setting) : Except SettingsError Loader :=
  match KeyPath.parse? key with
  | none => .error (.badKey key)
  | some path => .ok (loader.pin path value)

section

variable {m : Type → Type} [Monad m] [FileAccess m]

/-- Reads the files and takes the settings of the program from all layers. -/
def load (loader : Loader) : m (Except SettingsError Settings) := do
  match ← SettingsFile.readAll loader.files with
  | .error error => return .error error
  | .ok layers => return Settings.ofLayers layers loader.pins

end

end Loader

end TreeSketch
