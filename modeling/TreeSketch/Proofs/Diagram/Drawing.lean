import TreeSketch.Proofs.Diagram.Layout
import TreeSketch.Proofs.Tree.Preorder

/-!
# The lines of a diagram

`Node.drawn` lists the entries of a tree in the order of its diagram, each with its `Spot`: the root, or a
branch below columns of which each goes on or has ended. The spot alone decides the margin. Two things
follow from the list:

* `toList_diagram`: the diagram is the list, line by line;
* `map_drawn`: the depths of the spots are the depths of the entries in the tree.

The margins are those of the layout with connectors that are four wide (`Spot.isMargin`), so a legible label is
read back behind them (`ofLine_branch`).
-/

namespace TreeSketch.Diagram

/-- A column below an entry: a bar as long as more entries follow beside it. -/
def column (more : Bool) : List Char :=
  if more then "│   ".toList else "    ".toList

/-- The connector of an entry, with a corner if no more entries follow beside it. -/
def connector (more : Bool) : List Char :=
  if more then "├── ".toList else "└── ".toList

/-- The columns below several entries. -/
def columns (above : List Bool) : List Char :=
  above.flatMap column

@[simp] theorem columns_concat (above : List Bool) (more : Bool) :
    columns (above ++ [more]) = columns above ++ column more := by
  simp [columns]

/-- Where an entry stands in a diagram. -/
inductive Spot where
  | root
  /-- Below the root. For each entry on the way down, `above` says whether more entries follow beside it,
  and `more` says so for the entry itself. -/
  | branch (above : List Bool) (more : Bool)

namespace Spot

/-- The number of entries above. -/
def depth : Spot → Nat
  | root => 0
  | branch above _ => above.length + 1

/-- What stands on the line before the entry. -/
def margin : Spot → List Char
  | root => []
  | branch above more => columns above ++ connector more

/-- The line of an entry at the spot. -/
def line (spot : Spot) (node : Node) : List Char :=
  spot.margin ++ node.diagramLabel.toList

end Spot

end TreeSketch.Diagram

namespace TreeSketch.Node

open Diagram

mutual

/-- The entries below the root of a tree, in the order of its diagram. -/
def drawnBelow (above : List Bool) : Node → List (Spot × Node)
  | file _ => []
  | directory _ children => drawnEntries above children

/-- The entries of a directory and what is below them. -/
def drawnEntries (above : List Bool) : List Node → List (Spot × Node)
  | [] => []
  | node :: rest =>
    (.branch above (!rest.isEmpty), node) ::
      (drawnBelow (above ++ [!rest.isEmpty]) node ++ drawnEntries above rest)

end

/-- The entries of a tree in the order of its diagram. -/
def drawn (node : Node) : List (Spot × Node) :=
  (.root, node) :: drawnBelow [] node

/-- The lines of the diagram of a tree. -/
def drawnLines (node : Node) : List (List Char) :=
  node.drawn.map fun entry => entry.1.line entry.2

/-! ## The text -/

mutual

theorem toList_diagramBelow (before : String) (above : List Bool)
    (hbefore : before.toList = columns above) : (node : Node) →
    (diagramBelow before node).toList =
      Text.terminate ((drawnBelow above node).map fun entry => entry.1.line entry.2)
  | file _ => rfl
  | directory _ children => toList_diagramEntries before above hbefore children

theorem toList_diagramEntries (before : String) (above : List Bool)
    (hbefore : before.toList = columns above) : (nodes : List Node) →
    (diagramEntries before nodes).toList =
      Text.terminate ((drawnEntries above nodes).map fun entry => entry.1.line entry.2)
  | [] => rfl
  | node :: rest => by
    have hcontinued : (before ++ if rest.isEmpty then "    " else "│   ").toList =
        columns (above ++ [!rest.isEmpty]) := by
      rw [String.toList_append, hbefore, columns_concat, column]
      cases rest.isEmpty <;> rfl
    have hconnector : (if rest.isEmpty then "└── " else "├── " : String).toList =
        connector (!rest.isEmpty) := by
      rw [connector]
      cases rest.isEmpty <;> rfl
    have hbelow := toList_diagramBelow _ _ hcontinued node
    have hrest := toList_diagramEntries before above hbefore rest
    rw [diagramEntries, drawnEntries]
    simp only [String.toList_append, hbefore, hconnector, hbelow, hrest, List.map_cons,
      List.map_append, Text.terminate_cons, Text.terminate_append, Spot.line, Spot.margin,
      List.append_assoc]
    rfl

end

/-- The diagram of a tree is its lines. -/
theorem toList_diagram (node : Node) : node.diagram.toList = Text.terminate node.drawnLines := by
  rw [diagram, String.toList_append, String.toList_append,
    toList_diagramBelow "" [] rfl node, drawnLines, drawn, List.map_cons, Text.terminate_cons,
    List.append_assoc]
  rfl

/-! ## The depths -/

mutual

theorem map_drawnBelow (above : List Bool) : (node : Node) →
    (drawnBelow above node).map (fun entry => (entry.1.depth, entry.2)) =
      preorderAll (above.length + 1) node.children
  | file _ => rfl
  | directory _ children => map_drawnEntries above children

theorem map_drawnEntries (above : List Bool) : (nodes : List Node) →
    (drawnEntries above nodes).map (fun entry => (entry.1.depth, entry.2)) =
      preorderAll (above.length + 1) nodes
  | [] => rfl
  | node :: rest => by
    have hbelow := map_drawnBelow (above ++ [!rest.isEmpty]) node
    rw [List.length_append, List.length_singleton] at hbelow
    rw [drawnEntries, List.map_cons, List.map_append, hbelow, map_drawnEntries above rest,
      preorderAll, preorder_eq_cons, List.cons_append]
    rfl

end

/-- The diagram lists the entries of a tree in preorder, each at its depth. -/
theorem map_drawn (node : Node) :
    node.drawn.map (fun entry => (entry.1.depth, entry.2)) = node.preorder 0 := by
  rw [drawn, List.map_cons, map_drawnBelow, preorder_eq_cons]
  rfl

theorem mem_walk_of_mem_drawn {node : Node} {entry : Spot × Node} (h : entry ∈ node.drawn) :
    (entry.1.depth, entry.2) ∈ node.walk := by
  rw [walk_eq_preorder, ← map_drawn]
  exact List.mem_map_of_mem h

theorem length_drawn (node : Node) : node.drawn.length = node.size := by
  rw [← length_preorder 0, ← map_drawn, List.length_map]

mutual

/-- Every entry but the root is drawn as a branch. -/
theorem exists_branch_of_mem_drawnBelow {entry : Spot × Node} (above : List Bool) :
    (node : Node) → entry ∈ drawnBelow above node → ∃ ends more, entry.1 = .branch ends more
  | file _, h => nomatch h
  | directory _ children, h => exists_branch_of_mem_drawnEntries above children h

theorem exists_branch_of_mem_drawnEntries {entry : Spot × Node} (above : List Bool) :
    (nodes : List Node) → entry ∈ drawnEntries above nodes →
      ∃ ends more, entry.1 = .branch ends more
  | [], h => nomatch h
  | node :: rest, h => by
    rw [drawnEntries, List.mem_cons, List.mem_append] at h
    rcases h with rfl | hbelow | hrest
    · exact ⟨above, _, rfl⟩
    · exact exists_branch_of_mem_drawnBelow _ node hbelow
    · exact exists_branch_of_mem_drawnEntries above rest hrest

end

end TreeSketch.Node

namespace TreeSketch.Diagram

/-! ## The margins -/

theorem isColumn_column (more : Bool) : IsColumn 4 (column more) := by
  cases more
  · exact ⟨' ', Or.inr (Or.inr rfl), rfl⟩
  · exact ⟨'│', Or.inl rfl, rfl⟩

theorem isConnector_connector (more : Bool) : IsConnector 4 (connector more) := by
  cases more
  · exact ⟨'└', '─', 1, 0, rfl, rfl, rfl, rfl⟩
  · exact ⟨'├', '─', 1, 0, rfl, rfl, rfl, rfl⟩

theorem isColumn_of_mem_columns {above : List Bool} :
    ∀ part ∈ above.map column, IsColumn 4 part := by
  intro part hpart
  obtain ⟨more, -, rfl⟩ := List.mem_map.mp hpart
  exact isColumn_column more

/-- A diagram is laid out with connectors, each as wide as a column. -/
theorem Spot.isMargin (spot : Spot) : (Layout.connectors 4).IsMargin 0 spot.depth spot.margin := by
  cases spot with
  | root => exact .connectorsRoot
  | branch above more =>
    have hmargin : (Layout.connectors 4).IsMargin 0 ((above.map column).length + 1)
        (List.replicate 0 ' ' ++ (above.map column).flatten ++ connector more) :=
      .connector isColumn_of_mem_columns (isConnector_connector more)
    rwa [List.length_map] at hmargin

end TreeSketch.Diagram

namespace TreeSketch.Node

open Diagram

theorem lineFeed_not_mem_drawnLines {tree : Node} (h : ∀ entry ∈ tree.drawn, entry.2.Legible) :
    ∀ line ∈ tree.drawnLines, '\n' ∉ line := by
  intro line hline
  obtain ⟨entry, hentry, rfl⟩ := List.mem_map.mp hline
  rw [Spot.line, List.mem_append, not_or]
  exact ⟨entry.1.isMargin.lineFeed_not_mem, (h entry hentry).unbroken⟩

namespace Legible

/-- Behind a connector, a legible label is read back. -/
theorem ofLine_branch {node : Node} (h : node.Legible) (above : List Bool) (more : Bool) :
    Row.ofLine ((Spot.branch above more).line node) =
      .entry (Spot.branch above more).margin node.name.toList node.slashes := by
  have hline : Row.ofLine (List.replicate 0 ' ' ++ (above.map column).flatten ++ connector more ++
      node.diagramLabel.toList) = _ :=
    h.ofLine_connector isColumn_of_mem_columns (isConnector_connector more)
  exact hline

/-- Every line of a diagram is read as the entry on it, if its labels are legible and the root's stands
bare. -/
theorem ofLine_drawn {tree : Node} (hlegible : ∀ entry ∈ tree.drawn, entry.2.Legible)
    (hbare : tree.StandsBare) :
    ∀ entry ∈ tree.drawn, Row.ofLine (entry.1.line entry.2) =
      .entry entry.1.margin entry.2.name.toList entry.2.slashes := by
  intro entry hentry
  have hentry_legible := hlegible entry hentry
  rw [drawn, List.mem_cons] at hentry
  rcases hentry with rfl | hbelow
  · exact hentry_legible.ofLine_label hbare
  · obtain ⟨above, more, hspot⟩ := exists_branch_of_mem_drawnBelow [] tree hbelow
    rw [hspot]
    exact hentry_legible.ofLine_branch above more

end Legible

end TreeSketch.Node
