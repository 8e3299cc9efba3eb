import TreeSketch.Proofs.Diagram.Reading
import TreeSketch.Proofs.Diagram.Sheet

/-!
# Diagrams of trees that were read

The names of a tree that was read from a diagram are legible, so its diagram is read back as soon as the label
of its root stands bare (`parse_diagram_iff_of_parse`). It need not do so: in the source the root may stand
behind a bullet, and its diagram shows it without one (`not_forall_parse_diagram`).

That the condition is needed follows by counting. A diagram has as many lines as its tree has entries, and a
tree that is read takes every entry from a line of its own; so if the tree itself is read from its diagram,
every line holds an entry, and the first line holds the root.
-/

namespace TreeSketch.Diagram

/-- When a block has as many entries as the source has rows, its first entry stands on the first row. -/
theorem ofRow_head_of_length_le {source : List Char} {first : Entry} {rest : List Entry}
    {blocks : List (List Entry)} (h : readBlocks source = .ok ((first :: rest) :: blocks))
    (hlength : (rows source).length ≤ (first :: rest).length) :
    ∃ row ∈ (rows source).head?, first.OfRow row := by
  have hrows := forall₂_readBlocks h
  -- Every row holds an entry, since there are not fewer of these.
  have hcount : (rows source).length ≤ ((rows source).filter Row.hasName).length := by
    rw [← hrows.length_eq, List.flatten_cons, List.length_append]
    exact Nat.le_add_right_of_le hlength
  rw [List.filter_sublist.eq_of_length_le hcount, List.flatten_cons, List.cons_append] at hrows
  obtain ⟨row, more, hrow, -, hall⟩ := List.forall₂_cons_left_iff.mp hrows
  exact ⟨row, by rw [hall, List.head?_cons, Option.mem_some], hrow⟩

/-- The rows of a diagram with legible labels: the first one is the root's label, and there are as many as the
tree has entries. -/
theorem rows_diagram {tree : Node} (h : ∀ entry ∈ tree.walk, entry.2.Legible) :
    (rows tree.diagram.toList).head? = some (Row.ofLine tree.diagramLabel.toList) ∧
      (rows tree.diagram.toList).length = tree.size := by
  have hdrawn : ∀ entry ∈ tree.drawn, entry.2.Legible := fun entry hentry =>
    h (entry.1.depth, entry.2) (Node.mem_walk_of_mem_drawn hentry)
  have hroot : tree.Legible := h (0, tree) tree.mem_walk_self
  rw [tree.toList_diagram, rows_terminate (Node.lineFeed_not_mem_drawnLines hdrawn)]
  constructor
  · rw [Node.drawnLines, Node.drawn, List.map_cons, List.map_cons, List.head?_cons, Row.ofRawLine,
      Spot.line, Spot.margin, List.nil_append, Text.dropReturn_eq_self hroot.getLast?_ne_return]
  · rw [Node.drawnLines, List.length_map, List.length_map, Node.length_drawn]

/-- A diagram that is read as its own tree shows a root that stands bare. -/
theorem standsBare_of_parse_diagram {tree : Node} (h : parse tree.diagram = .ok tree) :
    tree.StandsBare := by
  have hlegible := legible_of_parse h
  obtain ⟨block, blocks, more, hblocks, htrees⟩ := exists_block_of_parse h
  obtain ⟨hhead, hsize⟩ := rows_diagram hlegible
  have hlisted := Block.forall₂_trees htrees
  have hlength : (rows tree.diagram.toList).length ≤ block.length := by
    rw [hsize, hlisted.length_eq, Node.preorderAll, List.length_append, Node.length_preorder]
    exact Nat.le_add_right _ _
  rw [Node.preorderAll, Node.preorder_eq_cons, List.cons_append] at hlisted
  obtain ⟨first, rest, hfirst, -, rfl⟩ := List.forall₂_cons_right_iff.mp hlisted
  obtain ⟨row, hrow, -, slashes, hof, -⟩ := ofRow_head_of_length_le hblocks hlength
  -- The first row is the root's label, and the entry on it is the root.
  rw [hhead, Option.mem_some] at hrow
  have hsame : first.name = tree.name := by
    have hname := congrArg Node.name hfirst
    rwa [Label.name_close] at hname
  rw [← hrow, hsame] at hof
  exact (hlegible (0, tree) tree.mem_walk_self).standsBare_of_ofLine hof

/-- The diagram of a tree that was read from a diagram is read back exactly when the label of the root stands
bare. -/
theorem parse_diagram_iff_of_parse {source : String} {tree : Node} (h : parse source = .ok tree) :
    parse tree.diagram = .ok tree ↔ tree.StandsBare :=
  ⟨standsBare_of_parse_diagram, fun hbare => parse_diagram ⟨legible_of_parse h, hbare⟩⟩

/-- The name behind a bullet may start with another bullet. -/
theorem parse_diagram_iff_of_parse_bullets :
    parse (Node.file "- x").diagram = .ok (.file "- x") ↔ (Node.file "- x").StandsBare :=
  parse_diagram_iff_of_parse (show parse "- - x\n" = .ok (.file "- x") by rfl)

/-- Not every tree that is read from a diagram is read back from its own. -/
theorem not_forall_parse_diagram :
    ¬ ∀ source tree, parse source = .ok tree → parse tree.diagram = .ok tree := by
  intro hall
  have hread : parse "- - x\n" = .ok (.file "- x") := by rfl
  -- Without the first bullet, the second one is taken for the margin.
  have hbare : parse (Node.file "- x").diagram = .ok (.file "x") := by rfl
  have hsame := hall _ _ hread
  rw [hbare] at hsame
  exact absurd (Node.file.inj (Except.ok.inj hsame)) (by decide)

end TreeSketch.Diagram
