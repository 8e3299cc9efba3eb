import TreeSketch.Files.Access
import TreeSketch.Tree.Node

/-!
# Creating trees

A tree is created under a base directory: its entries become directories and empty files, in the order of the
walk. What fails is noted and the walk goes on, so that one bad entry does not hide what happens to the
others. An entry whose name is not a single name is refused together with everything below it, so nothing is
ever created outside the base.
-/

namespace TreeSketch

/-- How trees are created. -/
structure CreateOptions where
  /-- Files are created, and not only directories. -/
  createFiles : Bool
  /-- Nothing is created and everything is reported as if it were. -/
  dryRun : Bool
deriving Repr, DecidableEq

/-- Why an entry is not created. -/
inductive CreateError where
  /-- The name is not a single name. -/
  | refused (name : String)
  | io (cause : IoError)
deriving Repr, DecidableEq

namespace CreateError

/-- The text of the error. -/
def message : CreateError → String
  | refused name => "`" ++ name ++ "` is not a single file or directory name"
  | io cause => cause.message

end CreateError

/-- What has happened to an entry. A refused entry is reported at the directory that it would stand in. -/
structure Outcome where
  path : String
  kind : Kind
  error : Option CreateError
deriving Repr, DecidableEq

/-- What has happened to the entries of a tree, in the order of the walk. -/
structure CreationReport where
  outcomes : List Outcome
  dryRun : Bool
deriving Repr, DecidableEq

namespace CreationReport

/-- The number of entries of a kind that were created. -/
def created (report : CreationReport) (kind : Kind) : Nat :=
  report.outcomes.countP fun outcome => outcome.kind = kind && outcome.error.isNone

/-- The entries that were not created, with the reasons. -/
def failures (report : CreationReport) : List (Outcome × CreateError) :=
  report.outcomes.filterMap fun outcome => outcome.error.map (outcome, ·)

/-- Nothing has failed. -/
def succeeded (report : CreationReport) : Bool :=
  report.failures.isEmpty

/-- The paths of the entries that were created. -/
def createdPaths (report : CreationReport) : List String :=
  (report.outcomes.filter (·.error.isNone)).map (·.path)

/-- The report as text. -/
def display (report : CreationReport) : String :=
  let heading := if report.dryRun then "Dry run summary:\n" else "Creation summary:\n"
  let failures := report.failures.map fun (outcome, error) =>
    "    - Error creating " ++ outcome.path ++ ": " ++ error.message ++ "\n"
  let errors :=
    if failures.isEmpty then ""
    else "  Errors (" ++ toString failures.length ++ "):\n" ++ String.join failures
  heading ++ "  Directories created: " ++ toString (report.created .directory) ++ "\n" ++
    "  Files created: " ++ toString (report.created .file) ++ "\n" ++ errors

end CreationReport

namespace CreateOptions

section

variable {m : Type → Type} [Monad m] [FileAccess m]

/-- Creates one entry at a path. -/
def createEntry (options : CreateOptions) (kind : Kind) (path : String) : m Outcome := do
  if options.dryRun then
    return ⟨path, kind, none⟩
  else
    let result ←
      match kind with
      | .directory => makePath path
      | .file => makeFile path
    match result with
    | .ok () => return ⟨path, kind, none⟩
    | .error cause => return ⟨path, kind, some (.io cause)⟩

mutual

/-- Creates a tree in the directory `base`. -/
def createNode (options : CreateOptions) (base : String) : Node → m (List Outcome)
  | .file name => do
    if !options.createFiles then return []
    else if !Path.isSingleName name then return [⟨base, .file, some (.refused name)⟩]
    else return [← options.createEntry .file (Path.join base name)]
  | .directory name children => do
    if !Path.isSingleName name then return [⟨base, .directory, some (.refused name)⟩]
    else
      let path := Path.join base name
      let outcome ← options.createEntry .directory path
      let below ← createNodes options path children
      return outcome :: below

/-- Creates trees in the directory `base`, one after another. -/
def createNodes (options : CreateOptions) (base : String) : List Node → m (List Outcome)
  | [] => return []
  | node :: rest => do
    let first ← createNode options base node
    let later ← createNodes options base rest
    return first ++ later

end

/-- Creates a tree in the directory `base`. -/
def create (options : CreateOptions) (base : String) (tree : Node) : m CreationReport := do
  let outcomes ← options.createNode base tree
  return ⟨outcomes, options.dryRun⟩

/-- The directory of the tree of a number among several: `tree_01`, `tree_02`, …. -/
def numberedBase (base : String) (number : Nat) : String :=
  Path.join base ("tree_" ++ (if number < 10 then "0" else "") ++ toString number)

/-- Creates trees in numbered directories, of which the first has the number `number`. -/
def createFrom (options : CreateOptions) (base : String) (number : Nat) :
    List Node → m (List CreationReport)
  | [] => return []
  | tree :: rest => do
    let report ← options.create (numberedBase base number) tree
    let later ← createFrom options base (number + 1) rest
    return report :: later

/-- Creates each tree in a directory of its own, numbered from one. -/
def createMany (options : CreateOptions) (base : String) (trees : List Node) :
    m (List CreationReport) :=
  options.createFrom base 1 trees

end

end CreateOptions

end TreeSketch
