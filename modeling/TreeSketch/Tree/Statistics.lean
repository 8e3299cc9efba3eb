import TreeSketch.Tree.Walk

/-!
# File statistics

How many files of a tree have which extension: the most common first, among equals those with an
extension before those without, and these in alphabetical order.
-/

namespace TreeSketch

/-- The number of files that share an extension; `none` stands for files without one. -/
structure ExtensionCount where
  extension : Option String
  files : Nat
deriving Repr, DecidableEq

namespace ExtensionCount

/-- Alphabetical order of extensions, by code point; a file without one comes last. -/
def extensionLE : Option String → Option String → Bool
  | some a, some b => a ≤ b
  | some _, none => true
  | none, some _ => false
  | none, none => true

/-- The order of the statistics. -/
def le (a b : ExtensionCount) : Bool :=
  b.files < a.files || (a.files = b.files && extensionLE a.extension b.extension)

/-- Counts one more file of an extension. -/
def tally (extension : Option String) : List ExtensionCount → List ExtensionCount
  | [] => [⟨extension, 1⟩]
  | count :: rest =>
    if count.extension = extension then ⟨extension, count.files + 1⟩ :: rest
    else count :: tally extension rest

/-- The table of a list of extensions, in the order in which they first occur. -/
def ofExtensions (extensions : List (Option String)) : List ExtensionCount :=
  extensions.foldl (fun counts extension => tally extension counts) []

end ExtensionCount

namespace Node

/-- The extensions of the files of a tree, in the order of the walk. -/
def fileExtensions (node : Node) : List (Option String) :=
  (node.walk.filter (·.2.isFile)).map (·.2.extension?)

/-- How many files of a tree have which extension, the most common first. -/
def fileStatistics (node : Node) : List ExtensionCount :=
  (ExtensionCount.ofExtensions node.fileExtensions).mergeSort ExtensionCount.le

/-- The totals of a tree and its file statistics, one to a line. -/
def summary (node : Node) : String :=
  let totals :=
    ["directories: " ++ toString node.countDirectories, "files: " ++ toString node.countFiles]
  let counts := node.fileStatistics.map fun count =>
    "  " ++ count.extension.getD "(none)" ++ ": " ++ toString count.files
  String.join ((totals ++ counts).map (· ++ "\n"))

end Node

end TreeSketch
