import TreeSketch.Creation
import TreeSketch.Settings.Value

/-!
# The settings of the program

`Settings.decode` takes what the program needs from a table of settings. It is generous with scalars: truth
values may be written as words or numbers and texts as truth values or numbers. Each section of settings is a
table, or an array of its fields in order.
-/

namespace TreeSketch

/-- What is wrong with settings. -/
inductive SettingsError where
  /-- A text is no key path. -/
  | badKey (key : String)
  /-- A file is not written in the language of settings files. -/
  | badFile (path : String)
  /-- A file that has to be there is missing. -/
  | missingFile (path : String)
  /-- A file that has to be there cannot be read. -/
  | unreadableFile (cause : IoError)
  /-- A value has the wrong type. -/
  | wrongType (found expected key : String) (origin : Option String)
  /-- A section is a single value. -/
  | wrongSection (found typeName : String)
  /-- A section is an array with too few items. -/
  | shortSection (length : Nat) (typeName : String) (fields : Nat)
  /-- A field is missing from a section. -/
  | missingField (name : String)
deriving Repr, DecidableEq

namespace SettingsError

/-- The text of the error. -/
def message : SettingsError → String
  | badKey key => "invalid key " ++ Text.quoted key
  | badFile path => "invalid settings file in " ++ path
  | missingFile path => "configuration file \"" ++ path ++ "\" not found"
  | unreadableFile cause => cause.message
  | wrongType found expected key origin =>
    "invalid type: " ++ found ++ ", expected " ++ expected ++ " for key `" ++ key ++ "`" ++
      (origin.map (" in " ++ ·)).getD ""
  | wrongSection found typeName =>
    "invalid type: " ++ found ++ ", expected struct " ++ typeName
  | shortSection length typeName fields =>
    "invalid length " ++ toString length ++ ", expected struct " ++ typeName ++ " with " ++
      toString fields ++ (if fields = 1 then " element" else " elements")
  | missingField name => "missing field `" ++ name ++ "`"

end SettingsError

/-- Everything that the program can be set to do. -/
structure Settings where
  /-- The directory that trees are created in. -/
  output : String
  create : CreateOptions
  /-- Every tree of a file is created, and not only the first. -/
  allTrees : Bool
  /-- Which log messages are wanted. -/
  logFilter : String
deriving Repr, DecidableEq

/-- A section of settings: its key, the name of its type in messages, and the keys of its fields. -/
structure Section where
  key : String
  typeName : String
  fields : List String
deriving Repr, DecidableEq

namespace Section

/-- How trees are created. -/
def create : Section :=
  ⟨"create", "CreateConfig", ["output", "create_files", "dry_run"]⟩

/-- How diagrams are read. -/
def diagram : Section :=
  ⟨"diagram", "DiagramConfig", ["all_trees"]⟩

/-- What is logged. -/
def log : Section :=
  ⟨"log", "LogConfig", ["filter"]⟩

/-- The section has a form that fields can be taken from. -/
def checkForm (sort : Section) : Setting → Except SettingsError Unit
  | .scalar _ value => .error (.wrongSection value.describe sort.typeName)
  | _ => .ok ()

/-- The key path and the value of the field of a number, if it is there. -/
def slot? (sort : Section) (number : Nat) : Setting → Option (String × Setting)
  | .scalar _ _ => none
  | .array _ items =>
    (items[number]?).map fun item => (sort.key ++ "[" ++ toString number ++ "]", item)
  | .table _ fields => do
    let name ← sort.fields[number]?
    let value ← fields.lookup name
    return (sort.key ++ "." ++ name, value)

/-- Takes the field of a number, if it is there. -/
def read {α : Type} (sort : Section) (decode : String → Setting → Except SettingsError α)
    (number : Nat) (setting : Setting) : Except SettingsError (Option α) :=
  match sort.slot? number setting with
  | none => .ok none
  | some (key, value) => (decode key value).map some

/-- A field that has to be there. -/
def require {α : Type} (sort : Section) (setting : Setting) (number : Nat) :
    Option α → Except SettingsError α
  | some value => .ok value
  | none =>
    match setting with
    | .array _ items => .error (.shortSection items.length sort.typeName sort.fields.length)
    | _ => .error (.missingField (sort.fields.getD number sort.key))

end Section

namespace Setting

/-- The truth value of a word in lower case. -/
def truthOfWord? (word : String) : Option Bool :=
  if ["1", "true", "on", "yes"].contains word then some true
  else if ["0", "false", "off", "no"].contains word then some false
  else none

/-- The fault that the value at a key has the wrong type. -/
private def mistyped (setting : Setting) (found expected key : String) : SettingsError :=
  .wrongType found expected key setting.origin?

/-- Takes a truth value: every number but zero is true. -/
def readTruth (key : String) (setting : Setting) : Except SettingsError Bool :=
  match setting with
  | scalar _ (.boolean value) => .ok value
  | scalar _ (.integer value) => .ok (value ≠ 0)
  | scalar _ (.float value) => .ok !value.isZero
  | scalar _ (.string value) =>
    let word := Text.lowercase value
    match truthOfWord? word with
    | some truth => .ok truth
    | none => .error (setting.mistyped (Scalar.string word).describe "a boolean" key)
  | _ => .error (setting.mistyped setting.describe "a boolean" key)

/-- Takes a text. -/
def readText (key : String) (setting : Setting) : Except SettingsError String :=
  match setting with
  | scalar _ (.boolean value) => .ok (toString value)
  | scalar _ (.integer value) => .ok (toString value)
  | scalar _ (.float value) => .ok value.display
  | scalar _ (.string value) => .ok value
  | _ => .error (setting.mistyped setting.describe "a string" key)

/-- The section of a key; it has to be there. -/
def section? (setting : Setting) (sort : Section) : Except SettingsError Setting :=
  match setting.field? sort.key with
  | some value => (sort.checkForm value).map fun _ => value
  | none => .error (.missingField sort.key)

end Setting

namespace Settings

/-- Takes how trees are created. Fields that are there are looked at before any is missed. -/
def decodeCreate (setting : Setting) : Except SettingsError (String × CreateOptions) := do
  let output ← Section.create.read Setting.readText 0 setting
  let createFiles ← Section.create.read Setting.readTruth 1 setting
  let dryRun ← Section.create.read Setting.readTruth 2 setting
  let output ← Section.create.require setting 0 output
  let createFiles ← Section.create.require setting 1 createFiles
  let dryRun ← Section.create.require setting 2 dryRun
  return (output, ⟨createFiles, dryRun⟩)

/-- Takes the settings of the program from a table. -/
def decode (setting : Setting) : Except SettingsError Settings := do
  let (output, create) ← decodeCreate (← setting.section? .create)
  let diagram ← setting.section? .diagram
  let allTrees ← Section.diagram.read Setting.readTruth 0 diagram
  let allTrees ← Section.diagram.require diagram 0 allTrees
  let log ← setting.section? .log
  let filter ← Section.log.read Setting.readText 0 log
  let filter ← Section.log.require log 0 filter
  return ⟨output, create, allTrees, filter⟩

end Settings

end TreeSketch
