import TreeSketch.Tree.Node

/-!
# Walking a tree

`Node.walk` lists the entries of a tree with their depths, each directory before its entries. It keeps
the trees that are still to be visited on a stack, so it needs no more room than the tree is wide.
`Node.paths` lists the same entries by the names that lead to them, and the two counts are counts of the
walk.
-/

namespace TreeSketch.Node

/-- Visits the trees on a stack, the first one next; each carries the depth of its root. -/
def walkStack : List (Nat × Node) → List (Nat × Node)
  | [] => []
  | (depth, node) :: stack =>
    (depth, node) :: walkStack (node.children.map (fun child => (depth + 1, child)) ++ stack)
termination_by stack => sizeAll (stack.map (·.2))
decreasing_by
  have same : ((fun x : Nat × Node => x.2) ∘ fun child => (depth + 1, child)) = id := rfl
  simp only [List.map_append, List.map_map, same, List.map_id, sizeAll_append, List.map_cons, sizeAll,
    size_eq_sizeAll_children node]
  omega

/-- The entries of a tree with their depths, the root first and at depth 0. -/
def walk (node : Node) : List (Nat × Node) :=
  walkStack [(0, node)]

/-- The number of files in a tree. -/
def countFiles (node : Node) : Nat :=
  node.walk.countP (·.2.isFile)

/-- The number of directories in a tree. -/
def countDirectories (node : Node) : Nat :=
  node.walk.countP (·.2.isDirectory)

/-- The path of an entry below the path `base`; under an empty path it is the bare name. -/
def pathBelow (base name : String) : String :=
  if base = "" then name else base ++ "/" ++ name

mutual

/-- The paths of the entries of a tree below the path `base`. -/
def pathsBelow (base : String) : Node → List String
  | file name => [pathBelow base name]
  | directory name children =>
    pathBelow base name :: pathsBelowAll (pathBelow base name) children

/-- The paths of the entries of several trees below the path `base`. -/
def pathsBelowAll (base : String) : List Node → List String
  | [] => []
  | node :: rest => pathsBelow base node ++ pathsBelowAll base rest

end

/-- The path of each entry of a tree from the root down, in the order of the walk. -/
def paths (node : Node) : List String :=
  node.pathsBelow ""

end TreeSketch.Node
