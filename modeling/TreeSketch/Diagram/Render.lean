import TreeSketch.Tree.Node

/-!
# Writing diagrams

A tree as a diagram: the root on a line of its own and every other entry behind a connector, below columns
that continue the connectors above it. A slash follows the name of every directory.
-/

namespace TreeSketch

namespace Node

/-- The name as a diagram shows it. -/
def diagramLabel : Node → String
  | file name => name
  | directory name _ => name ++ "/"

mutual

/-- The lines below the line of a tree's root, each behind the columns `columns`. -/
def diagramBelow (columns : String) : Node → String
  | file _ => ""
  | directory _ children => diagramEntries columns children

/-- The lines of the entries of a directory, each behind the columns `columns`; the last entry has a
connector of its own, and no column continues it. -/
def diagramEntries (columns : String) : List Node → String
  | [] => ""
  | node :: rest =>
    let connector := if rest.isEmpty then "└── " else "├── "
    let continued := if rest.isEmpty then "    " else "│   "
    columns ++ connector ++ node.diagramLabel ++ "\n" ++
      diagramBelow (columns ++ continued) node ++ diagramEntries columns rest

end

/-- The diagram of a tree. -/
def diagram (node : Node) : String :=
  node.diagramLabel ++ "\n" ++ node.diagramBelow ""

end Node

namespace Diagram

/-- Why there is no diagram. -/
inductive RenderError where
  /-- There is no tree. -/
  | noRoot
deriving Repr, DecidableEq

/-- The text of the error. -/
def RenderError.message : RenderError → String
  | noRoot => "cannot serialize a tree without a root"

/-- The diagram of a tree that may be missing. -/
def render : Option Node → Except RenderError String
  | none => .error .noRoot
  | some tree => .ok tree.diagram

end Diagram

end TreeSketch
