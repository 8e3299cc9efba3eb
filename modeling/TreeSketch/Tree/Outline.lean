import TreeSketch.Tree.Node

/-!
# Outlines

Both tree languages list the entries of a tree in the order of its walk, each with its depth. Such a list
is an outline, and `Outline.assemble` turns it into trees: the children of an entry are the trees that
follow it at greater depths. `Label.close` decides what an entry is once its children are known.
-/

namespace TreeSketch

/-- An entry as a source writes it: its name, and what the source says that it is. -/
structure Label where
  name : String
  fixed : Option Verdict
deriving Repr, DecidableEq

namespace Label

/-- What the entry is when `children` stand below it. -/
def verdict (label : Label) (children : List Node) : Verdict :=
  label.fixed.getD (Verdict.infer label.name !children.isEmpty)

/-- The tree of an entry and the trees below it. A file has none; no source puts entries below what it
says is a file. -/
def close (label : Label) (children : List Node) : Node :=
  match (label.verdict children).kind with
  | .file => .file label.name
  | .directory => .directory label.name children

end Label

/-- Entries in the order of a walk, each with its depth. -/
abbrev Outline := List (Nat × Label)

namespace Outline

/-- The trees of an outline, each with the depth of its root. An entry takes the trees behind it for
its own as long as they are deeper. -/
def assemble : Outline → List (Nat × Node)
  | [] => []
  | (depth, label) :: rest =>
    let trees := assemble rest
    let below := trees.takeWhile fun tree => depth < tree.1
    let beside := trees.dropWhile fun tree => depth < tree.1
    (depth, label.close (below.map (·.2))) :: beside

/-- The trees of an outline. -/
def trees (outline : Outline) : List Node :=
  outline.assemble.map (·.2)

end Outline

end TreeSketch
