import TreeSketch.Proofs.Diagram.Reading
import TreeSketch.Proofs.Diagram.Block

/-!
# Diagrams one after the other

A `sheet` shows several trees, each as its diagram, with any number of blank lines between one diagram and the
next. `parse_sheet` says that `Diagram.parseAll` reads the trees back, and `Diagram.parse` the first one. A
blank line starts a new block, and diagrams without one between them share a block; so the blocks of a sheet
show the trees in groups (`exists_readBlocks_sheet`), and each block is read as the trees of its group.

`parse_diagram` is the case of a single tree, under the weakest condition on its names: `Node.ReadsBack`.
-/

namespace TreeSketch

/-- The diagram of the tree can be read: every label is legible, and the root's label stands bare. -/
structure Node.ReadsBack (tree : Node) : Prop where
  legible : ∀ entry ∈ tree.walk, entry.2.Legible
  bare : tree.StandsBare

namespace Node.ReadsBack

variable {tree : Node}

/-- A tree reads back if its names do. -/
theorem of_readsAsName
    (h : ∀ entry ∈ tree.walk, Diagram.readsAsName entry.2.name.toList = true) : tree.ReadsBack where
  legible entry hentry := legible_of_readsAsName (h entry hentry)
  bare := by
    have hroot : Diagram.readsAsName tree.name.toList = true := h (0, tree) tree.mem_walk_self
    exact standsBare_of_readsAsName hroot

theorem legible_of_mem_drawn (h : tree.ReadsBack) :
    ∀ entry ∈ tree.drawn, entry.2.Legible := by
  intro entry hentry
  exact h.legible (entry.1.depth, entry.2) (mem_walk_of_mem_drawn hentry)

end Node.ReadsBack

namespace Diagram

/-! ## Lines -/

/-- Diagrams one after the other. Each tree after the first comes with the lines above its diagram. -/
def sheet (first : Node) : List (List String × Node) → String
  | [] => first.diagram
  | (gap, next) :: rest => first.diagram ++ String.join (gap.map (· ++ "\n")) ++ sheet next rest

/-- The lines hold nothing but blanks. -/
def IsGap (gap : List String) : Prop :=
  ∀ line ∈ gap, Text.allBlank line.toList = true ∧ '\n' ∉ line.toList

instance (gap : List String) : Decidable (IsGap gap) :=
  inferInstanceAs (Decidable (∀ line ∈ gap, Text.allBlank line.toList = true ∧ '\n' ∉ line.toList))

/-- The lines of a sheet. -/
def sheetLines (first : Node) : List (List String × Node) → List (List Char)
  | [] => first.drawnLines
  | (gap, next) :: rest => first.drawnLines ++ (gap.map String.toList ++ sheetLines next rest)

theorem toList_sheet (first : Node) (rest : List (List String × Node)) :
    (sheet first rest).toList = Text.terminate (sheetLines first rest) := by
  induction rest generalizing first with
  | nil => exact first.toList_diagram
  | cons entry rest ih =>
    obtain ⟨gap, next⟩ := entry
    have hgap : (String.join (gap.map (· ++ "\n"))).toList =
        Text.terminate (gap.map String.toList) := by
      rw [String.toList_join, List.flatMap_map, Text.terminate, List.flatMap_map]
      exact List.flatMap_congr fun line _ => String.toList_append
    rw [sheet, sheetLines, String.toList_append, String.toList_append, first.toList_diagram, hgap,
      ih, Text.terminate_append, Text.terminate_append, List.append_assoc]

theorem lineFeed_not_mem_sheetLines {first : Node} {rest : List (List String × Node)}
    (htrees : ∀ tree ∈ first :: rest.map (·.2), tree.ReadsBack)
    (hgaps : ∀ entry ∈ rest, IsGap entry.1) :
    ∀ line ∈ sheetLines first rest, '\n' ∉ line := by
  induction rest generalizing first with
  | nil =>
    have hfirst := htrees first List.mem_cons_self
    exact Node.lineFeed_not_mem_drawnLines hfirst.legible_of_mem_drawn
  | cons entry rest ih =>
    rw [List.forall_mem_cons] at htrees hgaps
    intro line hline
    rw [sheetLines, List.mem_append, List.mem_append] at hline
    rcases hline with hfirst | hgap | hrest
    · exact Node.lineFeed_not_mem_drawnLines htrees.1.legible_of_mem_drawn line hfirst
    · obtain ⟨blank, hblank, rfl⟩ := List.mem_map.mp hgap
      exact (hgaps.1 blank hblank).2
    · exact ih htrees.2 hgaps.2 line hrest

/-! ## Rows -/

/-- The row of a drawn entry. -/
def Row.ofDrawn (drawn : Spot × Node) : Row :=
  .entry drawn.1.margin drawn.2.name.toList drawn.2.slashes

/-- A raw line as a row. -/
def Row.ofRawLine (line : List Char) : Row :=
  ofLine (Text.dropReturn line)

theorem rows_terminate {lines : List (List Char)} (h : ∀ line ∈ lines, '\n' ∉ line) :
    rows (Text.terminate lines) = lines.map Row.ofRawLine := by
  rw [rows, Text.bareLines, Text.rawLines_terminate h, List.map_map]
  rfl

theorem map_ofRawLine_drawnLines {tree : Node} (h : tree.ReadsBack) :
    tree.drawnLines.map Row.ofRawLine = tree.drawn.map Row.ofDrawn := by
  rw [Node.drawnLines, List.map_map]
  refine List.map_congr_left fun entry hentry => ?_
  have hlegible := h.legible_of_mem_drawn entry hentry
  have hlast : (entry.1.line entry.2).getLast? ≠ some '\r' := by
    rw [Spot.line, List.getLast?_append_of_ne_nil _ hlegible.label_ne]
    exact hlegible.getLast?_ne_return
  rw [Function.comp_apply, Row.ofRawLine, Text.dropReturn_eq_self hlast, Row.ofDrawn]
  exact Node.Legible.ofLine_drawn h.legible_of_mem_drawn h.bare entry hentry

theorem map_ofRawLine_gap {gap : List String} (h : IsGap gap) :
    (gap.map String.toList).map Row.ofRawLine = List.replicate gap.length .blank := by
  rw [List.eq_replicate_iff, List.length_map, List.length_map]
  refine ⟨rfl, fun row hrow => ?_⟩
  rw [List.map_map, List.mem_map] at hrow
  obtain ⟨line, hline, rfl⟩ := hrow
  have hblank : Text.allBlank (Text.dropReturn line.toList) = true := by
    have hall := (h line hline).1
    rw [Text.allBlank, List.all_eq_true] at hall ⊢
    exact fun c hc => hall c ((Text.dropReturn_isPrefix line.toList).subset hc)
  rw [Function.comp_apply, Row.ofRawLine, Row.ofLine, hblank, Bool.true_or, if_pos rfl]

/-! ## Blocks -/

/-- Drawn entries go to the block that they stand in, before what follows in it. -/
theorem exists_splitBlocks_drawn {drawn : List (Spot × Node)}
    (h : ∀ entry ∈ drawn, entry.2.Legible) (rest : List Row) (line : Nat) :
    ∃ block next, List.Forall₂ Entry.Draws block drawn ∧
      splitBlocks line (drawn.map Row.ofDrawn ++ rest) =
        (block ++ (splitBlocks next rest).1, (splitBlocks next rest).2) := by
  induction drawn generalizing line with
  | nil => exact ⟨[], line, List.Forall₂.nil, rfl⟩
  | cons entry drawn ih =>
    rw [List.forall_mem_cons] at h
    obtain ⟨block, next, hblock, hsplit⟩ := ih h.2 (line + 1)
    refine ⟨⟨line, entry.1.margin, String.ofList entry.2.name.toList, entry.2.slashes ≠ 0⟩ :: block,
      next, List.Forall₂.cons ⟨rfl, String.ofList_toList, ?_⟩ hblock, ?_⟩
    · exact entry.2.decide_slashes_ne
    · rw [List.map_cons, List.cons_append, Row.ofDrawn, splitBlocks_named h.1.name_ne,
        hsplit]
      rfl

/-- Blank rows end a block, however many there are. -/
theorem exists_splitBlocks_replicate (count : Nat) (rest : List Row) (line : Nat) :
    ∃ next, splitBlocks line (List.replicate (count + 1) .blank ++ rest) =
      ([], consBlock (splitBlocks next rest).1 (splitBlocks next rest).2) := by
  induction count generalizing line with
  | zero => exact ⟨line + 1, rfl⟩
  | succ count ih =>
    obtain ⟨next, hnext⟩ := ih (line + 1)
    refine ⟨next, ?_⟩
    rw [List.replicate_succ, List.cons_append, splitBlocks, hnext]
    rfl

theorem Block.Draws.ne_nil {block : List Entry} {tree : Node} {more : List Node}
    (h : Block.Draws block (tree :: more)) : block ≠ [] := by
  rintro rfl
  rw [Block.Draws, List.flatMap_cons, Node.drawn, List.cons_append] at h
  cases h

/-- The blocks of a sheet show its trees in groups: the first tree and some that follow it, then the rest. -/
theorem exists_splitBlocks_sheet {first : Node} {rest : List (List String × Node)}
    (htrees : ∀ tree ∈ first :: rest.map (·.2), tree.ReadsBack)
    (hgaps : ∀ entry ∈ rest, IsGap entry.1) (line : Nat) :
    ∃ block blocks more groups,
      splitBlocks line ((sheetLines first rest).map Row.ofRawLine) = (block, blocks) ∧
      Block.Draws block (first :: more) ∧ List.Forall₂ Block.Draws blocks groups ∧
      more ++ groups.flatten = rest.map (·.2) := by
  induction rest generalizing first line with
  | nil =>
    have hfirst := htrees first List.mem_cons_self
    obtain ⟨block, next, hblock, hsplit⟩ :=
      exists_splitBlocks_drawn hfirst.legible_of_mem_drawn [] line
    refine ⟨block, [], [], [], ?_, ?_, List.Forall₂.nil, rfl⟩
    · rw [List.append_nil] at hsplit
      rw [sheetLines, map_ofRawLine_drawnLines hfirst, hsplit, splitBlocks, List.append_nil]
    · rwa [Block.Draws, List.flatMap_singleton]
  | cons entry rest ih =>
    obtain ⟨gap, next⟩ := entry
    rw [List.forall_mem_cons] at htrees hgaps
    obtain ⟨hfirst, htrees⟩ := htrees
    have hrows : (sheetLines first ((gap, next) :: rest)).map Row.ofRawLine =
        first.drawn.map Row.ofDrawn ++ (List.replicate gap.length .blank ++
          (sheetLines next rest).map Row.ofRawLine) := by
      rw [sheetLines, List.map_append, List.map_append, map_ofRawLine_drawnLines hfirst,
        map_ofRawLine_gap hgaps.1]
    obtain ⟨before, start, hbefore, hsplit⟩ := exists_splitBlocks_drawn hfirst.legible_of_mem_drawn
      (List.replicate gap.length .blank ++ (sheetLines next rest).map Row.ofRawLine) line
    rw [hrows, hsplit]
    cases hlength : gap.length with
    | zero =>
      -- Without a gap, the first tree joins the group of the next one.
      obtain ⟨block, blocks, more, groups, hblocks, hblock, hgroups, hall⟩ := ih htrees hgaps.2 start
      refine ⟨before ++ block, blocks, next :: more, groups, ?_, ?_, hgroups, ?_⟩
      · rw [List.replicate_zero, List.nil_append, hblocks]
      · rw [Block.Draws, List.flatMap_cons]
        exact List.rel_append hbefore hblock
      · rw [List.cons_append, hall, List.map_cons]
    | succ count =>
      obtain ⟨stop, hstop⟩ := exists_splitBlocks_replicate count
        ((sheetLines next rest).map Row.ofRawLine) start
      obtain ⟨block, blocks, more, groups, hblocks, hblock, hgroups, hall⟩ := ih htrees hgaps.2 stop
      refine ⟨before, block :: blocks, [], (next :: more) :: groups, ?_, ?_,
        List.Forall₂.cons hblock hgroups, ?_⟩
      · rw [hstop, hblocks, List.append_nil, consBlock, if_neg hblock.ne_nil]
      · rwa [Block.Draws, List.flatMap_singleton]
      · rw [List.nil_append, List.flatten_cons, List.cons_append, hall, List.map_cons]

/-- A sheet is not blank: it shows the label of the first tree. -/
theorem not_allBlank_sheet {first : Node} (rest : List (List String × Node))
    (h : first.ReadsBack) : Text.allBlank (sheet first rest).toList = false := by
  have hlegible := h.legible _ first.mem_walk_self
  obtain ⟨c, hc, hsolid⟩ := Row.exists_not_isBlank hlegible.content_eq hlegible.label_ne
  have hline : Spot.root.line first ∈ sheetLines first rest := by
    cases rest with
    | nil => exact List.mem_cons_self
    | cons entry rest => exact List.mem_append_left _ List.mem_cons_self
  refine List.all_eq_false.mpr ⟨c, ?_, by simp [hsolid]⟩
  rw [toList_sheet]
  exact List.mem_flatMap.mpr ⟨_, hline, List.mem_append_left _ hc⟩

theorem exists_readBlocks_sheet {first : Node} {rest : List (List String × Node)}
    (htrees : ∀ tree ∈ first :: rest.map (·.2), tree.ReadsBack)
    (hgaps : ∀ entry ∈ rest, IsGap entry.1) :
    ∃ block blocks more groups,
      readBlocks (sheet first rest).toList = .ok (block :: blocks) ∧
      Block.Draws block (first :: more) ∧ List.Forall₂ Block.Draws blocks groups ∧
      more ++ groups.flatten = rest.map (·.2) := by
  obtain ⟨block, blocks, more, groups, hblocks, hblock, hgroups, hall⟩ :=
    exists_splitBlocks_sheet htrees hgaps 1
  refine ⟨block, blocks, more, groups, ?_, hblock, hgroups, hall⟩
  have hblocksOf : blocksOf (rows (sheet first rest).toList) = block :: blocks := by
    rw [toList_sheet, rows_terminate (lineFeed_not_mem_sheetLines htrees hgaps)]
    simp only [blocksOf, hblocks]
    rw [consBlock, if_neg hblock.ne_nil]
  have hblank := not_allBlank_sheet rest (htrees first List.mem_cons_self)
  rw [readBlocks, if_neg (by simp [hblank])]
  simp only [hblocksOf]

/-! ## Reading -/

theorem parseAll_sheet_of_readsBack {first : Node} {rest : List (List String × Node)}
    (htrees : ∀ tree ∈ first :: rest.map (·.2), tree.ReadsBack)
    (hgaps : ∀ entry ∈ rest, IsGap entry.1) :
    parseAll (sheet first rest) = .ok (first :: rest.map (·.2)) := by
  obtain ⟨block, blocks, more, groups, hread, hblock, hgroups, hall⟩ :=
    exists_readBlocks_sheet htrees hgaps
  have hforests : (block :: blocks).mapM Block.trees = .ok ((first :: more) :: groups) := by
    refine mapM_eq_ok_iff.mpr (List.Forall₂.cons (Block.trees_of_draws hblock) ?_)
    exact hgroups.imp fun _ _ hgroup => Block.trees_of_draws hgroup
  rw [parseAll, ← hall]
  exact bind_eq_ok_iff.mpr ⟨_, hread, bind_eq_ok_iff.mpr ⟨_, hforests, rfl⟩⟩

theorem parse_sheet_of_readsBack {first : Node} {rest : List (List String × Node)}
    (htrees : ∀ tree ∈ first :: rest.map (·.2), tree.ReadsBack)
    (hgaps : ∀ entry ∈ rest, IsGap entry.1) : parse (sheet first rest) = .ok first := by
  obtain ⟨block, blocks, more, groups, hread, hblock, -, -⟩ := exists_readBlocks_sheet htrees hgaps
  exact parse_of_trees hread (Block.trees_of_draws hblock)

/-- The diagram of a single tree is read back, if its labels can be read. -/
theorem parse_diagram {tree : Node} (h : tree.ReadsBack) : parse tree.diagram = .ok tree := by
  have hsheet : parse (sheet tree []) = .ok tree :=
    parse_sheet_of_readsBack (List.forall_mem_singleton.mpr h) (List.forall_mem_nil _)
  rwa [sheet] at hsheet

/-- Trees whose names read back are read back from a sheet: all of them, and the first one alone. -/
theorem parse_sheet {first : Node} {rest : List (List String × Node)}
    (hnames : ∀ tree ∈ first :: rest.map (·.2), ∀ entry ∈ tree.walk,
      readsAsName entry.2.name.toList = true)
    (hgaps : ∀ entry ∈ rest, IsGap entry.1) :
    parseAll (sheet first rest) = .ok (first :: rest.map (·.2)) ∧
      parse (sheet first rest) = .ok first := by
  have htrees : ∀ tree ∈ first :: rest.map (·.2), tree.ReadsBack :=
    fun tree htree => .of_readsAsName (hnames tree htree)
  exact ⟨parseAll_sheet_of_readsBack htrees hgaps, parse_sheet_of_readsBack htrees hgaps⟩

/-- Three trees, of which the last one stands behind blank lines. -/
theorem parse_sheet_three :
    let src : Node := .directory "src" [.file "read me", .directory "lib" [.file "a#b"]]
    let rest : List (List String × Node) :=
      [([], .file "notes"), ([" \t", ""], .directory "docs" [])]
    parseAll (sheet src rest) = .ok [src, .file "notes", .directory "docs" []] ∧
      parse (sheet src rest) = .ok src :=
  parse_sheet (by decide +kernel) (by decide +kernel)

end Diagram

end TreeSketch
