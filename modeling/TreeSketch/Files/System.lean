import TreeSketch.Path

/-!
# File systems

A file system is a finite map from the names on the way down from the root to directories and files; there
are no links. The root is also the working directory, so a path that starts with a slash and one that does
not mean the same, and the parent of the root is the root.

Each operation takes a path as text, as an operating system does, and either succeeds or says why not. None
of them removes or overwrites anything: `makeDirectory` and `touch` only add an entry.
-/

namespace TreeSketch

/-- Why an operation on files fails. -/
inductive IoError where
  | notFound
  | alreadyExists
  | notADirectory
  | isADirectory
  | nameTooLong
  /-- A path holds the character zero. -/
  | zeroInPath
  /-- A file that is read as text is not UTF-8. -/
  | notText
  /-- Another reason, in the words of the machine; no operation here gives one. -/
  | other (description : String)
deriving Repr, DecidableEq

namespace IoError

/-- The text of the error. -/
def message : IoError → String
  | notFound => "No such file or directory (os error 2)"
  | alreadyExists => "File exists (os error 17)"
  | notADirectory => "Not a directory (os error 20)"
  | isADirectory => "Is a directory (os error 21)"
  | nameTooLong => "File name too long (os error 36)"
  | zeroInPath => "file name contained an unexpected NUL byte"
  | notText => "stream did not contain valid UTF-8"
  | other description => description

end IoError

/-- What stands at a place of a file system. -/
inductive Entry where
  | directory
  | file (content : ByteArray)

namespace Entry

instance : DecidableEq Entry
  | directory, directory => isTrue rfl
  | directory, file _ => isFalse nofun
  | file _, directory => isFalse nofun
  | file content, file other =>
    -- The instance is named because libraries bring another one.
    @decidable_of_iff _ _ ⟨congrArg file, file.inj⟩ (ByteArray.instDecidableEq content other)

/-- The entry is a directory. -/
def isDirectory : Entry → Bool
  | directory => true
  | file _ => false

end Entry

/-- Directories and files by the names that lead to them. -/
structure FileSystem where
  /-- Every entry but the root. -/
  entries : List (List String × Entry)
  /-- The most bytes that a path may have, if there is a limit. -/
  pathLimit : Option Nat
deriving DecidableEq

namespace FileSystem

/-- The most bytes that a name may have. -/
def nameLimit : Nat := 255

/-- The most bytes that a path may have where there is a limit. -/
def usualPathLimit : Nat := 4095

/-- The file system that holds nothing but the root. -/
def empty : FileSystem :=
  ⟨[], some usualPathLimit⟩

/-- What stands at a place. -/
def find? (fs : FileSystem) (place : List String) : Option Entry :=
  if place = [] then some .directory else fs.entries.lookup place

/-- Puts an entry at a place where there is none. -/
def add (fs : FileSystem) (place : List String) (entry : Entry) : FileSystem :=
  { fs with entries := (place, entry) :: fs.entries }

/-- Something is looked for at a place, which has to be a directory. -/
def enter (fs : FileSystem) (place : List String) : Except IoError Unit :=
  match fs.find? place with
  | none => .error .notFound
  | some (.file _) => .error .notADirectory
  | some .directory => .ok ()

/-- The place of a name in a directory, whether or not something stands there. -/
def slot (fs : FileSystem) (place : List String) (name : String) : Except IoError (List String) := do
  fs.enter place
  if nameLimit < name.utf8ByteSize then .error .nameTooLong else .ok (place ++ [name])

/-- The place that a move leads to. Each move starts from a directory. -/
def move (fs : FileSystem) (place : List String) : Path.Step → Except IoError (List String)
  | .here => do
    fs.enter place
    return place
  | .up => do
    fs.enter place
    return place.dropLast
  | .into name => do
    let found ← fs.slot place name
    if (fs.find? found).isNone then .error .notFound else .ok found

/-- The place that moves lead to. Nothing is missing on the way. -/
def follow (fs : FileSystem) (place : List String) : List Path.Step → Except IoError (List String)
  | [] => .ok place
  | step :: rest => do
    let next ← fs.move place step
    follow fs next rest

/-- The moves of a path that the file system takes as an argument. -/
def stepsOf (fs : FileSystem) (path : String) : Except IoError (List Path.Step) :=
  if path.toList.contains '\x00' then .error .zeroInPath
  else if path = "" then .error .notFound
  else if fs.pathLimit.any (· < path.utf8ByteSize) then .error .nameTooLong
  else .ok (Path.steps path)

/-- What stands at a place where something has to stand. -/
def entryAt (fs : FileSystem) (place : List String) : Except IoError Entry :=
  match fs.find? place with
  | some entry => .ok entry
  | none => .error .notFound

/-- What stands at a path. -/
def lookup (fs : FileSystem) (path : String) : Except IoError Entry := do
  let steps ← fs.stepsOf path
  let place ← fs.follow [] steps
  fs.entryAt place

/-- The place where a path adds an entry: the last move goes into a directory that exists. A path without
such a move leads to a directory; `whenDirectory` says why nothing can be added there. -/
def newPlace (fs : FileSystem) (path : String) (whenDirectory : IoError) :
    Except IoError (List String) := do
  let steps ← fs.stepsOf path
  match steps.filter (· ≠ .here) |>.getLast? with
  | some (.into name) =>
    let above ← fs.follow [] ((steps.filter (· ≠ .here)).dropLast)
    fs.slot above name
  | _ =>
    let _ ← fs.follow [] steps
    .error whenDirectory

/-- Adds a directory where nothing stands yet. -/
def makeDirectory (fs : FileSystem) (path : String) : Except IoError FileSystem := do
  let place ← fs.newPlace path .alreadyExists
  match fs.find? place with
  | some _ => .error .alreadyExists
  | none => .ok (fs.add place .directory)

/-- Adds an empty file where nothing stands yet, and leaves a file that stands there as it is. -/
def touch (fs : FileSystem) (path : String) : Except IoError FileSystem := do
  let place ← fs.newPlace path .isADirectory
  match fs.find? place with
  | some .directory => .error .isADirectory
  | some (.file _) => .ok fs
  | none => .ok (fs.add place (.file .empty))

/-- The bytes of a file. -/
def read (fs : FileSystem) (path : String) : Except IoError ByteArray := do
  match ← fs.lookup path with
  | .file content => .ok content
  | .directory => .error .isADirectory

end FileSystem

end TreeSketch
