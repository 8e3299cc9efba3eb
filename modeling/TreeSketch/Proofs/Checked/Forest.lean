import TreeSketch.Diagram.Parser
import TreeSketch.Proofs.Checked.Arena
import TreeSketch.Proofs.Checked.Blocks
import TreeSketch.Proofs.Checked.Depth
import TreeSketch.Proofs.Diagram.Reading

/-!
# Diagram trees by entry numbers

The trees of a block, grown one after the other. An entry at the depth of the first one ends the tree
before it and starts another, and an entry further below is put below the entry of the spine one level up.

While there is a tree that grows, its arena has been grown along an outline, and its spine has as many
entries as the last entry has levels (`Forest.Grows`). So an entry that is at most one level below the
last finds its parent, and the trees are those of the outline (`trees_eq`). Blocks have entries, and what
is read of entries is at least a tree: `parse_eq` and `parseAll_eq` are about whole diagrams.
-/

namespace TreeSketch.Diagram.Checked

open TreeSketch.Checked

/-- What has been read of a block. -/
structure Forest where
  gauge : Gauge
  /-- The depth of the first entry. -/
  root : Option Nat
  /-- The tree that grows, with the youngest entry at each of its depths. -/
  growing : Option (Arena × List Nat)
  /-- The trees before it. -/
  trees : List Node

namespace Forest

/-- Nothing has been read. -/
def start : Forest :=
  ⟨.unset, none, none, []⟩

/-- The trees, with the one that grows. -/
def close (forest : Forest) : TreeSketch.Checked ParseError (List Node) :=
  match forest.growing with
  | none => .ok forest.trees
  | some (arena, spine) => do
    let root ← element spine 0
    let tree ← intoTree arena root
    return forest.trees ++ [tree]

/-- Adds an entry that is `depth` levels below the first one. -/
def add (forest : Forest) (entry : Entry) (depth : Nat) : TreeSketch.Checked ParseError Forest :=
  let label := entry.label
  if depth = 0 then do
    let trees ← forest.close
    return { forest with
      growing := some (Arena.empty.addRoot label.name label.fixed, [Arena.empty.size])
      trees := trees }
  else
    match forest.growing with
    | none => refuse (entry.misplaced .aboveRoot)
    | some (arena, spine) =>
      if spine.length < depth then do
        let last ← minus spine.length 1
        refuse (entry.misplaced (.jump last depth))
      else do
        let level ← minus depth 1
        let parent ← element spine level
        let next ← addChild arena parent label.name label.fixed
        return { forest with growing := some (next, spine.take depth ++ [arena.size]) }

/-- Reads entries. -/
def read (forest : Forest) (frame : Frame) : List Entry → TreeSketch.Checked ParseError (List Node)
  | [] => forest.close
  | entry :: rest => do
    let (depth, gauge) ← depth forest.gauge frame entry
    let root := forest.root.getD depth
    if depth < root then
      refuse (entry.misplaced .aboveRoot)
    else
      let relative ← minus depth root
      let next ← add { forest with gauge := gauge, root := some root } entry relative
      next.read frame rest

end Forest

/-- The trees of a block. -/
def trees (block : List Entry) : TreeSketch.Checked ParseError (List Node) := do
  let first ← element block 0
  let shape ← shapeOf first.margin
  Forest.start.read (Frame.ofShape shape) block

/-- Every tree of a diagram, in the order of the source. -/
def parseAll (source : String) : TreeSketch.Checked ParseError (List Node) := do
  let blocks ← readBlocks source.toList
  let forests ← blocks.mapM trees
  return forests.flatten

/-- The first tree of a diagram. A block without a tree is a trap. -/
def parse (source : String) : TreeSketch.Checked ParseError Node := do
  let blocks ← readBlocks source.toList
  let block ← element blocks 0
  let trees ← trees block
  let _ ← element block 0
  match trees with
  | tree :: _ => return tree
  | [] => fail .tree

/-! ## Growing trees -/

namespace Forest

/-- The tree that grows has been grown along the outline, whose last entry is `last` levels below the
first one. -/
structure Grows (forest : Forest) (root last : Nat) (outline : Outline) : Prop where
  measured : forest.gauge.Measured
  root_eq : forest.root = some root
  grown : ∃ arena spine, forest.growing = some (arena, spine) ∧ arena.Grown outline spine
  last_eq : ∃ label, outline.getLast? = some (last, label)

variable {forest : Forest} {root last : Nat} {outline : Outline}

theorem Grows.ne_nil (h : forest.Grows root last outline) : outline ≠ [] := by
  rintro rfl
  obtain ⟨label, hlabel⟩ := h.last_eq
  cases hlabel

/-- Another gauge does not matter to the tree. -/
theorem Grows.measure (h : forest.Grows root last outline) {gauge : Gauge} (hgauge : gauge.Measured) :
    Grows { forest with gauge := gauge, root := some root } root last outline :=
  ⟨hgauge, rfl, h.grown, h.last_eq⟩

/-- The tree that grows can be ended. -/
theorem close_eq (h : forest.Grows root last outline) :
    forest.close = .ok (forest.trees ++ outline.trees) := by
  obtain ⟨arena, spine, hgrowing, hgrown⟩ := h.grown
  have hpos : 0 < arena.size := hgrown.size_eq ▸ List.length_pos_iff.mpr h.ne_nil
  rw [close, hgrowing, hgrown.trees_eq h.ne_nil]
  show element spine 0 >>= _ = _
  rw [element_of_getElem? (hgrown.spine_zero h.ne_nil), ok_bind, intoTree_eq hpos]
  rfl

/-- A tree that has a root. -/
theorem grows_root {gauge : Gauge} (hgauge : gauge.Measured) (root : Nat) (label : Label)
    (trees : List Node) :
    Grows ⟨gauge, some root, some (Arena.empty.addRoot label.name label.fixed, [Arena.empty.size]),
      trees⟩ root 0 [(0, label)] :=
  ⟨hgauge, rfl, ⟨_, _, rfl, Arena.grown_root label⟩, ⟨label, rfl⟩⟩

/-- An entry at most one level below the last one is put into the tree. -/
theorem add_succ (h : forest.Grows root last outline) (entry : Entry) {depth : Nat}
    (hdepth : depth ≤ last) :
    ∃ growing, forest.add entry (depth + 1) = .ok { forest with growing := growing } ∧
      Grows { forest with growing := growing } root (depth + 1)
        (outline ++ [(depth + 1, entry.label)]) := by
  obtain ⟨arena, spine, hgrowing, hgrown⟩ := h.grown
  obtain ⟨label, hlast⟩ := h.last_eq
  have hlength : spine.length = last + 1 := hgrown.spine_length _ hlast
  have hparent : spine[depth]? = some spine[depth] := List.getElem?_eq_getElem (by omega)
  obtain ⟨next, hnext, hchild⟩ := hgrown.child hparent entry.label
  refine ⟨some (next, spine.take (depth + 1) ++ [arena.size]), ?_,
    h.measured, h.root_eq, ⟨_, _, rfl, hchild⟩, ⟨_, List.getLast?_concat⟩⟩
  have hlevel : (minus (depth + 1) 1 : TreeSketch.Checked ParseError Nat) = .ok depth :=
    minus_of_le (Nat.succ_pos depth)
  have hnear : ¬ spine.length < depth + 1 := by omega
  simp only [add, hgrowing, if_neg (Nat.succ_ne_zero depth), if_neg hnear, hlevel,
    element_of_getElem? hparent, addChild, hnext, ok_bind]
  rfl

/-- An entry further below has no parent. -/
theorem add_of_lt (h : forest.Grows root last outline) (entry : Entry) {depth : Nat}
    (hdepth : last + 1 < depth) :
    forest.add entry depth = refuse (entry.misplaced (.jump last depth)) := by
  obtain ⟨arena, spine, hgrowing, hgrown⟩ := h.grown
  obtain ⟨label, hlast⟩ := h.last_eq
  have hlength : spine.length = last + 1 := hgrown.spine_length _ hlast
  have hminus : (minus spine.length 1 : TreeSketch.Checked ParseError Nat) = .ok last := by
    rw [minus_of_le (by omega), hlength, Nat.add_sub_cancel]
  have hdeep : depth ≠ 0 := by omega
  have hfar : spine.length < depth := by omega
  simp only [add, hgrowing, if_neg hdeep, if_pos hfar, hminus, ok_bind]

/-- An entry at the depth of the first one starts a tree. -/
theorem add_zero (h : forest.Grows root last outline) (entry : Entry) :
    forest.add entry 0 = .ok { forest with
      growing := some (Arena.empty.addRoot entry.label.name entry.label.fixed, [Arena.empty.size])
      trees := forest.trees ++ outline.trees } := by
  simp only [add, if_true, close_eq h, ok_bind]
  rfl

/-- The trees are those of the outline, with the entries that are left. -/
theorem read_eq (h : forest.Grows root last outline) (frame : Frame) (entries : List Entry) :
    forest.read frame entries =
      lift (Block.outlineBelow frame root forest.gauge last entries >>= fun below =>
        .ok (forest.trees ++ (outline ++ below).trees)) := by
  induction entries generalizing forest last outline with
  | nil =>
    rw [read, close_eq h, Block.outlineBelow]
    show _ = lift (Except.ok (forest.trees ++ (outline ++ []).trees))
    rw [List.append_nil]
    rfl
  | cons entry rest ih =>
    rw [read, depth_eq h.measured, Block.outlineBelow, bind_assoc, h.root_eq]
    refine lift_bind_eq fun step hdepth => ?_
    obtain ⟨depth, gauge⟩ := step
    have hnoted := h.measure (h.measured.of_depth hdepth)
    simp only [Option.getD_some]
    by_cases habove : depth < root
    · rw [if_pos habove, if_pos habove]
      rfl
    · rw [if_neg habove, if_neg habove, minus_of_le (Nat.le_of_not_lt habove), ok_bind]
      generalize depth - root = relative
      by_cases hjump : last + 1 < relative
      · rw [if_pos hjump, add_of_lt hnoted entry hjump]
        rfl
      · rw [if_neg hjump, bind_assoc]
        cases relative with
        | zero =>
          rw [add_zero hnoted, ok_bind, ih (grows_root hnoted.measured root entry.label _)]
          refine congrArg lift (bind_congr fun below => congrArg Except.ok ?_)
          rw [Outline.trees_append_root outline, ← List.append_assoc]
          rfl
        | succ relative =>
          have hnear : relative ≤ last := Nat.le_of_succ_le_succ (Nat.le_of_not_lt hjump)
          obtain ⟨growing, hadd, hgrows⟩ := add_succ hnoted entry hnear
          rw [hadd, ok_bind, ih hgrows]
          refine congrArg lift (bind_congr fun below => congrArg Except.ok ?_)
          rw [List.append_assoc, List.singleton_append]

end Forest

/-! ## Whole diagrams -/

/-- The trees of a block that has entries. -/
theorem trees_eq {block : List Entry} (h : block ≠ []) : trees block = lift (Block.trees block) := by
  obtain ⟨first, rest, rfl⟩ := List.exists_cons_of_ne_nil h
  have hfirst : (element (first :: rest) 0 : TreeSketch.Checked ParseError Entry) = .ok first := rfl
  have htrees : Block.trees (first :: rest) =
      Block.outline (first :: rest) >>= fun outline => .ok outline.trees := by
    rw [Block.trees]
    cases Block.outline (first :: rest) <;> rfl
  rw [trees, hfirst, ok_bind, shapeOf_eq, ok_bind, Forest.read,
    depth_eq (show Forest.start.gauge.Measured from Gauge.measured_unset), htrees, Block.outline, bind_assoc]
  refine lift_bind_eq fun step hroot => ?_
  obtain ⟨root, gauge⟩ := step
  have hmeasured := Gauge.measured_unset.of_depth hroot
  have hself : (minus root root : TreeSketch.Checked ParseError Nat) = .ok 0 := by
    rw [minus_of_le (Nat.le_refl root), Nat.sub_self]
  have hgrows := Forest.grows_root hmeasured root first.label []
  show (if root < root then _ else minus root root >>= _) = _
  rw [if_neg (Nat.lt_irrefl root), hself, bind_assoc]
  exact Forest.read_eq hgrows (Frame.ofShape (Shape.ofMargin first.margin)) rest

/-- The trees of a diagram are read without an access that fails, -/
theorem parseAll_eq (source : String) : parseAll source = lift (Diagram.parseAll source) := by
  rw [parseAll, readBlocks_eq]
  refine lift_bind_eq fun blocks hblocks => ?_
  have htrees : blocks.mapM trees = lift (blocks.mapM Block.trees) :=
    mapM_eq_lift fun block hblock => trees_eq ((ne_nil_of_readBlocks hblocks).2 block hblock)
  rw [htrees]
  exact lift_bind_eq fun _ _ => rfl

/-- and so is the first of them. -/
theorem parse_eq (source : String) : parse source = lift (Diagram.parse source) := by
  rw [parse, readBlocks_eq]
  refine lift_bind_eq fun blocks hblocks => ?_
  obtain ⟨hne, hentries⟩ := ne_nil_of_readBlocks hblocks
  obtain ⟨block, more, rfl⟩ := List.exists_cons_of_ne_nil hne
  have hblock : block ≠ [] := hentries block List.mem_cons_self
  obtain ⟨first, rest, hcons⟩ := List.exists_cons_of_ne_nil hblock
  have hfirst : (element block 0 : TreeSketch.Checked ParseError Entry) = .ok first := by
    rw [hcons]
    rfl
  show trees block >>= _ = _
  rw [trees_eq hblock]
  refine lift_bind_eq fun trees htrees => ?_
  obtain ⟨tree, others, rfl⟩ := List.exists_cons_of_ne_nil (Block.ne_nil_of_trees hblock htrees)
  rw [hfirst]
  rfl

end TreeSketch.Diagram.Checked
