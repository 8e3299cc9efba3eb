import TreeSketch.Diagram.Parser
import TreeSketch.Proofs.Diagram.Label
import TreeSketch.Proofs.Except
import TreeSketch.Proofs.Tree.Outline

/-!
# What is read from a diagram

Whatever a diagram looks like, its trees show what stands on its lines:

* the entries of all blocks are those of the lines that hold one, in order (`forall₂_readBlocks`);
* the trees of a block list its entries in order, each under the label of its line (`Block.forall₂_trees`).

So every entry of a tree that was read has a legible label (`legible_of_parse`).
-/

namespace TreeSketch.Diagram

/-! ## From lines to entries -/

/-- The row holds the entry. -/
def Entry.OfRow (entry : Entry) (row : Row) : Prop :=
  entry.name.toList ≠ [] ∧ ∃ slashes, row = .entry entry.margin entry.name.toList slashes ∧
    entry.marked = decide (slashes ≠ 0)

section Rows

variable {line slashes : Nat} {margin name : List Char} {rows : List Row}

theorem splitBlocks_blank : splitBlocks line (.blank :: rows) =
    ([], consBlock (splitBlocks (line + 1) rows).1 (splitBlocks (line + 1) rows).2) := rfl

theorem splitBlocks_nameless (h : name = []) :
    splitBlocks line (.entry margin name slashes :: rows) = splitBlocks (line + 1) rows := by
  rw [splitBlocks]
  exact if_pos h

theorem splitBlocks_named (h : name ≠ []) : splitBlocks line (.entry margin name slashes :: rows) =
    (⟨line, margin, String.ofList name, slashes ≠ 0⟩ :: (splitBlocks (line + 1) rows).1,
      (splitBlocks (line + 1) rows).2) := by
  rw [splitBlocks]
  exact if_neg h

/-- Only a blank row ends a block. -/
theorem snd_splitBlocks_entry : (splitBlocks line (.entry margin name slashes :: rows)).2 =
    (splitBlocks (line + 1) rows).2 := by
  by_cases hname : name = []
  · rw [splitBlocks_nameless hname]
  · rw [splitBlocks_named hname]

end Rows

theorem flatten_consBlock (block : List Entry) (blocks : List (List Entry)) :
    (consBlock block blocks).flatten = block ++ blocks.flatten := by
  rw [consBlock]
  split
  · rename_i hnil
    rw [hnil, List.nil_append]
  · rfl

/-- The row holds an entry. -/
def Row.hasName : Row → Bool
  | .blank => false
  | .entry _ name _ => name ≠ []

/-- The entries of all blocks are those of the rows that hold one, in order. -/
theorem forall₂_splitBlocks (rows : List Row) (line : Nat) :
    List.Forall₂ Entry.OfRow ((splitBlocks line rows).1 ++ (splitBlocks line rows).2.flatten)
      (rows.filter Row.hasName) := by
  induction rows generalizing line with
  | nil => exact List.Forall₂.nil
  | cons row rows ih =>
    cases row with
    | blank =>
      rw [splitBlocks_blank, List.nil_append, flatten_consBlock]
      exact ih (line + 1)
    | entry margin name slashes =>
      by_cases hname : name = []
      · rw [List.filter_cons_of_neg (by simp [Row.hasName, hname]), splitBlocks_nameless hname]
        exact ih (line + 1)
      · rw [List.filter_cons_of_pos (by simp [Row.hasName, hname]), splitBlocks_named hname]
        refine List.Forall₂.cons ⟨?_, slashes, ?_, rfl⟩ (ih (line + 1))
        · rwa [String.toList_ofList]
        · rw [String.toList_ofList]

/-- The blocks that a diagram is read as are those of its rows. -/
theorem eq_blocksOf_of_readBlocks {source : List Char} {blocks : List (List Entry)}
    (h : readBlocks source = .ok blocks) : blocks = blocksOf (rows source) := by
  rw [readBlocks] at h
  split at h
  · cases h
  · simp only [] at h
    split at h
    · cases h
    · cases h
      rfl

/-- The entries of a diagram are those of the rows that hold one, in order. -/
theorem forall₂_readBlocks {source : List Char} {blocks : List (List Entry)}
    (h : readBlocks source = .ok blocks) :
    List.Forall₂ Entry.OfRow blocks.flatten ((rows source).filter Row.hasName) := by
  rw [eq_blocksOf_of_readBlocks h, blocksOf, flatten_consBlock]
  exact forall₂_splitBlocks (rows source) 1

theorem ne_nil_of_mem_consBlock {first block : List Entry} {blocks : List (List Entry)}
    (h : ∀ block ∈ blocks, block ≠ []) (hmem : block ∈ consBlock first blocks) : block ≠ [] := by
  rw [consBlock] at hmem
  split at hmem
  · exact h block hmem
  · rename_i hfirst
    rcases List.mem_cons.mp hmem with rfl | hmem
    · exact hfirst
    · exact h block hmem

theorem ne_nil_of_mem_splitBlocks {line : Nat} {rows : List Row} :
    ∀ block ∈ (splitBlocks line rows).2, block ≠ [] := by
  induction rows generalizing line with
  | nil => exact nofun
  | cons row rest ih =>
    intro block hblock
    cases row with
    | blank => exact ne_nil_of_mem_consBlock ih hblock
    | entry margin name slashes =>
      rw [snd_splitBlocks_entry] at hblock
      exact ih block hblock

/-- A diagram that is read has blocks, and they have entries. -/
theorem ne_nil_of_readBlocks {source : List Char} {blocks : List (List Entry)}
    (h : readBlocks source = .ok blocks) : blocks ≠ [] ∧ ∀ block ∈ blocks, block ≠ [] := by
  have hblocks : ∀ block ∈ blocksOf (rows source), block ≠ [] :=
    fun block => ne_nil_of_mem_consBlock ne_nil_of_mem_splitBlocks
  rw [readBlocks] at h
  split at h
  · cases h
  · simp only [] at h
    split at h
    · cases h
    · rename_i hne
      cases h
      exact ⟨hne, hblocks⟩

/-! ## From entries to trees -/

/-- No line of a diagram says that its entry is a file. -/
theorem Entry.not_isFile_label (entry : Entry) : ¬ entry.label.IsFile := by
  intro hfile
  rw [label, Label.IsFile] at hfile
  cases hmarked : entry.marked <;> rw [hmarked] at hfile <;> cases hfile

namespace Block

/-- The next entry is listed when it has a depth that is neither above the first one nor too far below the one
before it. -/
theorem outlineBelow_cons_eq_ok_iff {frame : Frame} {gauge : Gauge} {root last : Nat}
    {entry : Entry} {rest : List Entry} {below : Outline} :
    outlineBelow frame root gauge last (entry :: rest) = .ok below ↔
      ∃ depth next more, gauge.depth frame entry = .ok (depth, next) ∧ root ≤ depth ∧
        depth ≤ root + last + 1 ∧ outlineBelow frame root next (depth - root) rest = .ok more ∧
        below = (depth - root, entry.label) :: more := by
  rw [outlineBelow, bind_eq_ok_iff]
  constructor
  · rintro ⟨⟨depth, next⟩, hdepth, h⟩
    simp only [] at h
    split at h
    · cases h
    · split at h
      · cases h
      · obtain ⟨more, hmore, h⟩ := bind_eq_ok_iff.mp h
        cases h
        exact ⟨depth, next, more, hdepth, by omega, by omega, hmore, rfl⟩
  · rintro ⟨depth, next, more, hdepth, hroot, hlast, hmore, rfl⟩
    have habove : ¬ depth < root := Nat.not_lt.mpr hroot
    have hjump : ¬ last + 1 < depth - root := by omega
    refine ⟨(depth, next), hdepth, ?_⟩
    simp only [if_neg habove, if_neg hjump]
    exact bind_eq_ok_iff.mpr ⟨more, hmore, rfl⟩

/-- The outline below an entry follows it step by step, under the labels of the lines. -/
theorem isChain_outlineBelow {frame : Frame} {root last : Nat} {gauge : Gauge}
    {entries : List Entry} {below : Outline}
    (h : outlineBelow frame root gauge last entries = .ok below) {label : Label}
    (hlabel : ¬ label.IsFile) :
    List.IsChain Outline.Follows ((last, label) :: below) ∧
      below.map (·.2) = entries.map Entry.label := by
  induction entries generalizing gauge last below label with
  | nil =>
    cases h
    exact ⟨List.IsChain.singleton _, rfl⟩
  | cons entry rest ih =>
    obtain ⟨depth, next, more, -, hroot, hjump, hmore, rfl⟩ := outlineBelow_cons_eq_ok_iff.mp h
    obtain ⟨hchain, hlabels⟩ := ih hmore entry.not_isFile_label
    refine ⟨List.isChain_cons_cons.mpr ⟨?_, hchain⟩, ?_⟩
    · rw [Outline.Follows]
      rcases Nat.lt_or_ge last (depth - root) with hbelow | hbeside
      · exact Or.inr ⟨by omega, hlabel⟩
      · exact Or.inl hbeside
    · rw [List.map_cons, List.map_cons, hlabels]

theorem isChain_outline {block : List Entry} {outline : Outline}
    (h : Block.outline block = .ok outline) :
    outline.IsChain Outline.Follows ∧ outline.map (·.2) = block.map Entry.label ∧
      ∀ entry ∈ outline.head?, entry.1 = 0 := by
  cases block with
  | nil =>
    cases h
    exact ⟨List.IsChain.nil, rfl, nofun⟩
  | cons first rest =>
    rw [Block.outline] at h
    obtain ⟨⟨root, gauge⟩, -, h⟩ := bind_eq_ok_iff.mp h
    obtain ⟨below, hbelow, h⟩ := bind_eq_ok_iff.mp h
    cases h
    obtain ⟨hchain, hlabels⟩ := isChain_outlineBelow hbelow first.not_isFile_label
    refine ⟨hchain, ?_, ?_⟩
    · rw [List.map_cons, List.map_cons, hlabels]
    · rintro _ ⟨⟩
      rfl

/-- The trees of a block list its outline, entry by entry and at the same depths. -/
theorem forall₂_shows_outline {block : List Entry} {outline : Outline}
    (h : Block.outline block = .ok outline) :
    List.Forall₂ Outline.Shows outline (Node.preorderAll 0 outline.trees) := by
  obtain ⟨hchain, -, hhead⟩ := isChain_outline h
  -- The first entry stands at depth zero, so every root does.
  have hroots : ∀ tree ∈ Outline.assemble outline, tree.1 = 0 := by
    intro tree htree
    cases outline with
    | nil => cases htree
    | cons first rest =>
      have hle := Outline.le_of_mem_assemble htree
      rwa [hhead first rfl, Nat.le_zero] at hle
  have hlisted : (Outline.assemble outline).flatMap (fun tree => tree.2.preorder tree.1) =
      Node.preorderAll 0 outline.trees := by
    rw [Outline.trees, Node.preorderAll_eq_flatMap, List.flatMap_map]
    exact List.flatMap_congr fun tree htree => by rw [hroots tree htree]
  rw [← hlisted]
  exact Outline.forall₂_assemble hchain

/-- The trees of a block list its entries in order, each under the label of its line. -/
theorem forall₂_trees {block : List Entry} {trees : List Node}
    (h : Block.trees block = .ok trees) :
    List.Forall₂ (fun entry shown => entry.label.close shown.2.children = shown.2) block
      (Node.preorderAll 0 trees) := by
  obtain ⟨outline, houtline, rfl⟩ := map_eq_ok_iff.mp h
  have hclosed : List.Forall₂ (fun label shown => label.close shown.2.children = shown.2)
      (outline.map (·.2)) (Node.preorderAll 0 outline.trees) :=
    List.forall₂_map_left_iff.mpr ((forall₂_shows_outline houtline).imp fun _ _ hshows => hshows.2)
  rw [(isChain_outline houtline).2.1] at hclosed
  exact List.forall₂_map_left_iff.mp hclosed

/-- A block with entries has a tree. -/
theorem ne_nil_of_trees {block : List Entry} {trees : List Node} (h : block ≠ [])
    (htrees : Block.trees block = .ok trees) : trees ≠ [] := by
  obtain ⟨first, rest, rfl⟩ := List.exists_cons_of_ne_nil h
  obtain ⟨outline, houtline, rfl⟩ := map_eq_ok_iff.mp htrees
  obtain ⟨⟨root, gauge⟩, -, hbelow⟩ := bind_eq_ok_iff.mp houtline
  obtain ⟨below, -, hcons⟩ := bind_eq_ok_iff.mp hbelow
  cases hcons
  exact nofun

/-- The trees of several blocks list the entries of all of them in order. -/
theorem forall₂_forests {blocks : List (List Entry)} {forests : List (List Node)}
    (h : List.Forall₂ (fun block trees => Block.trees block = .ok trees) blocks forests) :
    List.Forall₂ (fun entry shown => entry.label.close shown.2.children = shown.2) blocks.flatten
      (forests.flatten.flatMap Node.walk) := by
  induction h with
  | nil => exact List.Forall₂.nil
  | cons htrees _ ih =>
    rw [List.flatten_cons, List.flatten_cons, List.flatMap_append, ← Node.preorderAll_zero]
    exact List.rel_append (forall₂_trees htrees) ih

end Block

/-! ## From lines to trees -/

/-- A tree that is read is the first one of the first block. -/
theorem exists_block_of_parse {source : String} {tree : Node} (h : parse source = .ok tree) :
    ∃ block blocks more, readBlocks source.toList = .ok (block :: blocks) ∧
      Block.trees block = .ok (tree :: more) := by
  rw [parse] at h
  obtain ⟨blocks, hblocks, h⟩ := bind_eq_ok_iff.mp h
  cases blocks with
  | nil => cases h
  | cons block blocks =>
    obtain ⟨trees, htrees, h⟩ := bind_eq_ok_iff.mp h
    cases trees with
    | nil => cases h
    | cons first more =>
      cases h
      exact ⟨block, blocks, more, hblocks, htrees⟩

/-- The first tree of the first block is the tree that is read. -/
theorem parse_of_trees {source : String} {block : List Entry} {blocks : List (List Entry)}
    {tree : Node} {more : List Node} (hblocks : readBlocks source.toList = .ok (block :: blocks))
    (htrees : Block.trees block = .ok (tree :: more)) : parse source = .ok tree := by
  rw [parse]
  exact bind_eq_ok_iff.mpr ⟨_, hblocks, bind_eq_ok_iff.mpr ⟨_, htrees, rfl⟩⟩

/-- All trees that are read are those of the blocks, one block after another. -/
theorem exists_blocks_of_parseAll {source : String} {trees : List Node}
    (h : parseAll source = .ok trees) :
    ∃ blocks forests, readBlocks source.toList = .ok blocks ∧
      List.Forall₂ (fun block trees => Block.trees block = .ok trees) blocks forests ∧
      forests.flatten = trees := by
  rw [parseAll] at h
  obtain ⟨blocks, hblocks, h⟩ := bind_eq_ok_iff.mp h
  obtain ⟨forests, hforests, h⟩ := bind_eq_ok_iff.mp h
  exact ⟨blocks, forests, hblocks, mapM_eq_ok_iff.mp hforests, Except.ok.inj h⟩

/-- An entry whose row was read from a line without line feeds is legible wherever it is closed. -/
theorem Entry.OfRow.legible_close {entry : Entry} {line : List Char}
    (h : entry.OfRow (Row.ofLine line)) (hline : '\n' ∉ line) (children : List Node) :
    (entry.label.close children).Legible := by
  obtain ⟨hname, slashes, hrow, hmarked⟩ := h
  refine Node.legible_of_ofLine hline hrow hname ?_ fun hfile => ?_
  · rw [Label.name_close]
    rfl
  · -- A line with slashes says that its entry is a directory.
    by_contra hslashes
    rw [decide_eq_true hslashes] at hmarked
    rw [Node.isFile, Label.kind_close, Label.verdict, Entry.label, hmarked] at hfile
    cases hfile

/-- Every entry of a tree that is read has a legible label. -/
theorem legible_of_parse {source : String} {tree : Node} (h : parse source = .ok tree) :
    ∀ entry ∈ tree.walk, entry.2.Legible := by
  intro shown hshown
  obtain ⟨block, blocks, more, hblocks, htrees⟩ := exists_block_of_parse h
  have hlisted : shown ∈ Node.preorderAll 0 (tree :: more) := by
    rw [Node.preorderAll, ← Node.walk_eq_preorder]
    exact List.mem_append_left _ hshown
  obtain ⟨entry, hentry, hclose⟩ := exists_mem_of_forall₂ (Block.forall₂_trees htrees) hlisted
  have hentry : entry ∈ (block :: blocks).flatten := List.mem_append_left _ hentry
  obtain ⟨row, hrow, hof⟩ : ∃ row ∈ (rows source.toList).filter Row.hasName, entry.OfRow row :=
    exists_mem_of_forall₂ (List.Forall₂.flip (forall₂_readBlocks hblocks)) hentry
  obtain ⟨line, hline, rfl⟩ := List.mem_map.mp (List.mem_of_mem_filter hrow)
  rw [← hclose]
  exact hof.legible_close (Text.lineFeed_not_mem_bareLines hline) _

end TreeSketch.Diagram
