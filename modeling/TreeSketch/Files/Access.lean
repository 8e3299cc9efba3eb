import TreeSketch.Files.System

/-!
# Access to files

`FileAccess m` says that actions of the monad `m` can look at and add files. Everything that works on files
is written for any such monad: for a `FileSystem` as a state, which is what statements are made about, and
for the files of the machine, which the program works on.
-/

namespace TreeSketch

/-- What stands at a path, as far as that can be found out. -/
inductive Status where
  | absent
  | file
  | directory
deriving Repr, DecidableEq

/-- Actions of `m` can look at and add files. -/
class FileAccess (m : Type → Type) where
  /-- What stands at a path. A path that cannot be looked at counts as absent. -/
  status : String → m Status
  /-- The bytes of a file. -/
  read : String → m (Except IoError ByteArray)
  /-- Adds a directory to one that exists. -/
  makeDirectory : String → m (Except IoError Unit)
  /-- Adds an empty file to a directory that exists, unless there is a file. -/
  touch : String → m (Except IoError Unit)

namespace FileSystem

/-- What stands at a path. -/
def status (fs : FileSystem) (path : String) : Status :=
  match fs.lookup path with
  | .ok .directory => .directory
  | .ok (.file _) => .file
  | .error _ => .absent

/-- The outcome of an operation on a file system as an answer and the file system after it. -/
def settle (fs : FileSystem) : Except IoError FileSystem → Except IoError Unit × FileSystem
  | .ok next => (.ok (), next)
  | .error error => (.error error, fs)

end FileSystem

instance : FileAccess (StateM FileSystem) where
  status path := fun fs => (fs.status path, fs)
  read path := fun fs => (fs.read path, fs)
  makeDirectory path := fun fs => fs.settle (fs.makeDirectory path)
  touch path := fun fs => fs.settle (fs.touch path)

section

variable {m : Type → Type} [Monad m] [FileAccess m]

/-- Something stands at a path. -/
def pathExists (path : String) : m Bool :=
  return (← FileAccess.status path) ≠ .absent

/-- A file stands at a path. -/
def isFile (path : String) : m Bool :=
  return (← FileAccess.status path) = .file

/-- A directory stands at a path. -/
def isDirectory (path : String) : m Bool :=
  return (← FileAccess.status path) = .directory

/-- The text of a file. -/
def readText (path : String) : m (Except IoError String) := do
  match ← FileAccess.read path with
  | .error error => return .error error
  | .ok content =>
    match String.fromUTF8? content with
    | some text => return .ok text
    | none => return .error .notText

/-- The outcome of trying to add a directory at a path: one that is there already is no failure. -/
def forgive (path : String) : Except IoError Unit → m (Except IoError Unit)
  | .ok () => return .ok ()
  | .error error => return if ← isDirectory path then .ok () else .error error

/-- Adds the directory at the path of some pieces, given from the last to the first, and the directories
above it that are missing. Above a directory stands the one at the end of the last move before it. -/
def makeDirectories : List (List Char) → m (Except IoError Unit)
  | [] => return .ok ()
  | piece :: above =>
    if Path.isMove piece then do
      let path := Path.ofPieces (piece :: above).reverse
      match ← FileAccess.makeDirectory path with
      | .error .notFound =>
        match ← makeDirectories above with
        | .error error => return .error error
        | .ok () => forgive path (← FileAccess.makeDirectory path)
      | attempt => forgive path attempt
    else makeDirectories above

/-- Adds the directory at a path, and the directories above it that are missing. -/
def makePath (path : String) : m (Except IoError Unit) :=
  makeDirectories (Path.pieces path).reverse

/-- Adds an empty file at a path, unless there is a file, and the directories above it that are missing. -/
def makeFile (path : String) : m (Except IoError Unit) := do
  let above := ((Path.pieces path).reverse.dropWhile (!Path.isMove ·)).tail
  match ← makeDirectories above with
  | .error error => return .error error
  | .ok () => FileAccess.touch path

end

end TreeSketch
