import TreeSketch.Proofs.Diagram.Layout

/-!
# Renderings of a tree

A rendering shows the entries of a tree line by line, in one of the layouts of `Layout`. The slash behind a directory
may be left off where entries follow below it, and each line may take the corner, stroke, bar or bullet that it likes.
`parse_of_renders` says that all renderings of a tree are read as this tree, so the layouts agree.

Only the label is more than a matter of the layout: without its slash, a directory is shown like a file. It is still
closed to a directory, by the entries below it (`Node.exists_sketch_of_isShownAs`).
-/

namespace TreeSketch

/-- The text may stand for the entry. -/
def Node.IsShownAs (node : Node) (text : List Char) : Prop :=
  text = node.diagramLabel.toList ∨ node.children ≠ [] ∧ text = node.name.toList

/-- A text that may stand for an entry is a label that closes to the entry. -/
theorem Node.exists_sketch_of_isShownAs {node : Node} {text : List Char} (h : node.IsShownAs text) :
    ∃ sketch : Node, sketch.name = node.name ∧ text = sketch.diagramLabel.toList ∧
      sketch.sketchLabel.close node.children = node := by
  rcases h with rfl | ⟨hchildren, rfl⟩
  · exact ⟨node, rfl, rfl, node.close_sketchLabel⟩
  · refine ⟨.file node.name, rfl, rfl, ?_⟩
    cases node with
    | file name => exact absurd rfl hchildren
    | directory name children =>
      cases children with
      | nil => exact absurd rfl hchildren
      | cons child more => rfl

namespace Diagram

namespace Layout

variable {layout : Layout} {indent : Nat}

/-- The line shows the entry at its depth. -/
def Shows (layout : Layout) (indent : Nat) (entry : Nat × Node) (line : List Char) : Prop :=
  ∃ margin text, layout.IsMargin indent entry.1 margin ∧ entry.2.IsShownAs text ∧
    line = margin ++ text

/-- The lines show the entries of the tree, one by one. -/
def Renders (layout : Layout) (indent : Nat) (tree : Node) (lines : List (List Char)) : Prop :=
  List.Forall₂ (layout.Shows indent) tree.walk lines

namespace Shows

variable {entry : Nat × Node} {line : List Char}

/-- The line shows a legible label behind a margin of the layout. -/
theorem exists_sketch (h : layout.Shows indent entry line)
    (hname : readsAsName entry.2.name.toList = true) :
    ∃ margin, ∃ sketch : Node, layout.IsMargin indent entry.1 margin ∧
      sketch.Legible ∧ sketch.StandsBare ∧ line = margin ++ sketch.diagramLabel.toList ∧
      sketch.sketchLabel.close entry.2.children = entry.2 := by
  obtain ⟨margin, text, hmargin, htext, rfl⟩ := h
  obtain ⟨sketch, hsame, rfl, hclose⟩ := Node.exists_sketch_of_isShownAs htext
  rw [← hsame] at hname
  exact ⟨margin, sketch, hmargin, Node.legible_of_readsAsName hname,
    Node.standsBare_of_readsAsName hname, rfl, hclose⟩

/-- The line is not empty, and all of it is content. -/
theorem unbroken (h : layout.Shows indent entry line)
    (hname : readsAsName entry.2.name.toList = true) :
    '\n' ∉ line ∧ line.getLast? ≠ some '\r' ∧ ∃ c ∈ line, Text.isBlank c = false := by
  obtain ⟨margin, sketch, hmargin, hlegible, -, rfl, -⟩ := h.exists_sketch hname
  refine ⟨List.not_mem_append hmargin.lineFeed_not_mem hlegible.unbroken, ?_, ?_⟩
  · rw [List.getLast?_append_of_ne_nil _ hlegible.label_ne]
    exact hlegible.getLast?_ne_return
  · obtain ⟨c, hc, hsolid⟩ := Row.exists_not_isBlank hlegible.content_eq hlegible.label_ne
    exact ⟨c, List.mem_append_right _ hc, hsolid⟩

end Shows

/-- Lines that show entries make one block, and its entries read off the ruler of the layout. -/
theorem exists_splitBlocks_of_shows {entries : List (Nat × Node)} {lines : List (List Char)}
    (h : List.Forall₂ (layout.Shows indent) entries lines)
    (hnames : ∀ entry ∈ entries, readsAsName entry.2.name.toList = true) (line : Nat) :
    ∃ block, splitBlocks line (lines.map Row.ofLine) = (block, []) ∧
      List.Forall₂ (fun read shown => layout.IsMargin indent shown.1 read.margin ∧
        read.label.close shown.2.children = shown.2) block entries := by
  induction h generalizing line with
  | nil => exact ⟨[], rfl, List.Forall₂.nil⟩
  | @cons entry text entries lines hshows _ ih =>
    rw [List.forall_mem_cons] at hnames
    obtain ⟨block, hblock, hreads⟩ := ih hnames.2 (line + 1)
    obtain ⟨margin, sketch, hmargin, hlegible, hbare, rfl, hclose⟩ := hshows.exists_sketch hnames.1
    refine ⟨⟨line, margin, String.ofList sketch.name.toList, sketch.slashes ≠ 0⟩ :: block, ?_,
      List.Forall₂.cons ⟨hmargin, ?_⟩ hreads⟩
    · rw [List.map_cons, hmargin.ofLine_append hlegible hbare,
        splitBlocks_named hlegible.name_ne, hblock]
    · rw [Entry.label, String.ofList_toList, sketch.decide_slashes_ne]
      exact hclose

namespace Renders

variable {tree : Node} {lines : List (List Char)}

/-- The block of a rendering is read as the tree. -/
theorem trees_eq {block : List Entry}
    (h : List.Forall₂ (fun read shown => layout.IsMargin indent shown.1 read.margin ∧
      read.label.close shown.2.children = shown.2) block tree.walk) :
    Block.trees block = .ok [tree] := by
  have hroot : ∀ first ∈ block.head?, Frame.ofShape first.shape = (layout.ruler indent).frame := by
    rw [tree.walk_eq_preorder, Node.preorder_eq_cons] at h
    obtain ⟨root, below, ⟨hmargin, -⟩, -, rfl⟩ := List.forall₂_cons_right_iff.mp h
    rintro _ ⟨⟩
    exact hmargin.ofShape_eq
  refine Block.trees_of_reads hroot ?_
  rw [Node.preorderAll_zero, List.flatMap_singleton]
  exact h.imp fun read shown hread => ⟨hread.1.reads, hread.2⟩

/-- A source with the lines of a rendering holds one block. -/
theorem exists_readBlocks (h : layout.Renders indent tree lines)
    (hnames : ∀ entry ∈ tree.walk, readsAsName entry.2.name.toList = true) {source : List Char}
    (hlines : Text.rawLines source = lines) :
    ∃ block, readBlocks source = .ok [block] ∧
      List.Forall₂ (fun read shown => layout.IsMargin indent shown.1 read.margin ∧
        read.label.close shown.2.children = shown.2) block tree.walk := by
  have hunbroken : ∀ line ∈ lines,
      line.getLast? ≠ some '\r' ∧ ∃ c ∈ line, Text.isBlank c = false := by
    intro line hline
    obtain ⟨entry, hentry, hshows⟩ := exists_mem_of_forall₂ h hline
    exact (hshows.unbroken (hnames entry hentry)).2
  obtain ⟨block, hblock, hreads⟩ := exists_splitBlocks_of_shows h hnames 1
  refine ⟨block, ?_, hreads⟩
  have hblank : Text.allBlank source = false := by
    obtain ⟨line, hline, -⟩ := exists_mem_of_forall₂ h.flip tree.mem_walk_self
    obtain ⟨-, c, hc, hsolid⟩ := hunbroken line hline
    rw [← hlines] at hline
    exact List.all_eq_false.mpr ⟨c, Text.subset_of_mem_rawLines hline hc, by simp [hsolid]⟩
  have hne : block ≠ [] := by
    rintro rfl
    have hroot := tree.mem_walk_self
    rw [List.forall₂_nil_left_iff.mp hreads] at hroot
    cases hroot
  have hblocks : blocksOf (rows source) = [block] := by
    rw [rows, Text.bareLines_eq_of_rawLines hlines fun line hline => (hunbroken line hline).1]
    simp only [blocksOf, hblock]
    rw [consBlock, if_neg hne]
  rw [readBlocks, if_neg (by simp [hblank])]
  simp only [hblocks]

/-- A source with the lines of a rendering is read as the tree. -/
theorem parse_eq (h : layout.Renders indent tree lines)
    (hnames : ∀ entry ∈ tree.walk, readsAsName entry.2.name.toList = true) {source : String}
    (hlines : Text.rawLines source.toList = lines) : parse source = .ok tree := by
  obtain ⟨block, hread, hreads⟩ := exists_readBlocks h hnames hlines
  exact parse_of_trees hread (trees_eq hreads)

end Renders

end Layout

/-- All renderings of a tree are read as the tree, with a line feed behind the last line and without. -/
theorem parse_of_renders {tree : Node} {layout : Layout} {indent : Nat} {lines : List (List Char)}
    (hnames : ∀ entry ∈ tree.walk, readsAsName entry.2.name.toList = true)
    (h : layout.Renders indent tree lines) :
    parse (String.ofList (Text.terminate lines)) = .ok tree ∧
      parse (String.ofList (Text.joinLines lines)) = .ok tree := by
  have hlines : ∀ line ∈ lines, '\n' ∉ line ∧ line ≠ [] := by
    intro line hline
    obtain ⟨entry, hentry, hshows⟩ := exists_mem_of_forall₂ h hline
    obtain ⟨hfeed, -, c, hc, -⟩ := hshows.unbroken (hnames entry hentry)
    exact ⟨hfeed, List.ne_nil_of_mem hc⟩
  constructor
  · refine h.parse_eq hnames ?_
    rw [String.toList_ofList]
    exact Text.rawLines_terminate fun line hline => (hlines line hline).1
  · refine h.parse_eq hnames ?_
    rw [String.toList_ofList]
    exact Text.rawLines_joinLines (fun line hline => (hlines line hline).1)
      fun line hline => (hlines line hline).2

/-- Three connectors, no two of them alike, below an indented root whose slash is left off. -/
theorem parse_of_renders_connectors :
    let tree : Node := .directory "app" [.directory "src" [.file "main.rs"], .directory "doc" []]
    let lines : List (List Char) := ["  app".toList, "  +-- src/".toList,
      "  |   \\─  main.rs".toList, "  └── doc/".toList]
    parse (String.ofList (Text.terminate lines)) = .ok tree ∧
      parse (String.ofList (Text.joinLines lines)) = .ok tree := by
  intro tree lines
  have hbranch (columns : List (List Char)) (connector : List Char) :
      (∀ column ∈ columns, IsColumn 4 column) → IsConnector 4 connector →
      (Layout.connectors 4).IsMargin 2 (columns.length + 1)
        (List.replicate 2 ' ' ++ columns.flatten ++ connector) := .connector
  have hrenders : (Layout.connectors 4).Renders 2 tree lines := by
    rw [Layout.Renders, tree.walk_eq_preorder]
    refine .cons ⟨_, _, .connectorsRoot, Or.inr ⟨List.cons_ne_nil _ _, rfl⟩, rfl⟩ <|
      .cons ⟨_, _, hbranch [] ['+', '-', '-', ' '] nofun ⟨'+', '-', 1, 0, rfl, rfl, rfl, rfl⟩,
        Or.inl rfl, rfl⟩ <|
      .cons ⟨_, _, hbranch [['|', ' ', ' ', ' ']] ['\\', '─', ' ', ' '] ?_
        ⟨'\\', '─', 0, 1, rfl, rfl, rfl, rfl⟩, Or.inl rfl, rfl⟩ <|
      .cons ⟨_, _, hbranch [] ['└', '─', '─', ' '] nofun ⟨'└', '─', 1, 0, rfl, rfl, rfl, rfl⟩,
        Or.inl rfl, rfl⟩ .nil
    rw [List.forall_mem_singleton]
    exact ⟨'|', Or.inr (Or.inl rfl), rfl⟩
  exact parse_of_renders (by decide +kernel) hrenders

end Diagram

end TreeSketch
