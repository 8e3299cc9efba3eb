import TreeSketch.Proofs.Diagram.Drawing

/-!
# Blocks that are drawn

A block whose entries stand where a diagram puts them is read as the trees that were drawn
(`Block.trees_of_draws`), however many trees follow each other in it.

Such a block reads off the ruler of its layout, so it does not matter what stands in the columns.
-/

namespace TreeSketch

namespace Diagram

/-- The entry stands where a diagram puts it. -/
structure Entry.Draws (entry : Entry) (drawn : Spot × Node) : Prop where
  margin_eq : entry.margin = drawn.1.margin
  name_eq : entry.name = drawn.2.name
  marked_eq : entry.marked = drawn.2.isDirectory

theorem Entry.Draws.label_eq {entry : Entry} {drawn : Spot × Node} (h : entry.Draws drawn) :
    entry.label = drawn.2.sketchLabel := by
  rw [Entry.label, Node.sketchLabel, h.name_eq, h.marked_eq]

theorem map_flatMap_drawn (trees : List Node) :
    (trees.flatMap Node.drawn).map (fun entry => (entry.1.depth, entry.2)) =
      Node.preorderAll 0 trees := by
  rw [List.map_flatMap, Node.preorderAll_eq_flatMap]
  exact congrArg (trees.flatMap ·) (funext Node.map_drawn)

namespace Block

/-- The block shows trees as diagrams, one after the other. -/
def Draws (block : List Entry) (trees : List Node) : Prop :=
  List.Forall₂ Entry.Draws block (trees.flatMap Node.drawn)

/-- A block of diagrams is read as the trees that it shows. -/
theorem trees_of_draws {block : List Entry} {trees : List Node} (h : Draws block trees) :
    Block.trees block = .ok trees := by
  have hmargin : ∀ {entry : Entry} {drawn : Spot × Node}, entry.Draws drawn →
      (Layout.connectors 4).IsMargin 0 drawn.1.depth entry.margin := by
    intro entry drawn hdraws
    rw [hdraws.margin_eq]
    exact drawn.1.isMargin
  have hfirst : ∀ first ∈ block.head?,
      Frame.ofShape first.shape = ((Layout.connectors 4).ruler 0).frame := by
    intro first hhead
    cases trees with
    | nil =>
      obtain rfl : block = [] := by simpa [Draws] using h
      cases hhead
    | cons tree more =>
      rw [Draws, List.flatMap_cons, Node.drawn, List.cons_append] at h
      obtain ⟨root, rest, hroot, -, rfl⟩ := List.forall₂_cons_right_iff.mp h
      obtain rfl : root = first := by simpa using hhead
      exact (hmargin hroot).ofShape_eq
  refine trees_of_reads hfirst ?_
  rw [← map_flatMap_drawn, List.forall₂_map_right_iff]
  refine List.Forall₂.imp (fun entry drawn hdraws => ⟨(hmargin hdraws).reads, ?_⟩) h
  rw [hdraws.label_eq, Node.close_sketchLabel]

end Block

end Diagram

end TreeSketch
