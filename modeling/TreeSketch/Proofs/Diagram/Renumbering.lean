import TreeSketch.Proofs.Diagram.Block
import TreeSketch.Proofs.Except

/-!
# Lines by other numbers

The number of a line is only there for the faults of its entry. Entries that are numbered anew have the same
trees, or the same fault with its line numbered anew: every step that measures an entry commutes with `renumber`,
up to `Block.trees_renumber`.
-/

namespace TreeSketch

/-- The fault in a diagram with the lines numbered anew. -/
def ParseError.renumber (number : Nat → Nat) : ParseError → ParseError
  | inconsistentIndent line issue => inconsistentIndent (number line) issue
  | mixedStyles line expected found => mixedStyles (number line) expected found
  | noEntries line => noEntries (number line)
  | fault => fault

namespace Diagram

/-- The entry with its line numbered anew. -/
def Entry.renumber (number : Nat → Nat) (entry : Entry) : Entry :=
  { entry with line := number entry.line }

variable (number : Nat → Nat)

namespace Gauge

variable (gauge : Gauge) (frame : Frame) (entry : Entry)

theorem noteWhitespace_renumber (shape : Shape) :
    gauge.noteWhitespace (entry.renumber number) shape =
      (gauge.noteWhitespace entry shape).mapError (ParseError.renumber number) := by
  unfold noteWhitespace
  cases shape.leadHasTabs <;> cases shape.leadHasSpaces <;> simp only [] <;> try split
  all_goals rfl

theorem noteStyle_renumber (style : Style) :
    gauge.noteStyle (entry.renumber number) style =
      (gauge.noteStyle entry style).mapError (ParseError.renumber number) := by
  unfold noteStyle
  split
  · rfl
  · split
    · rfl
    · split <;> rfl

theorem levels_renumber (width candidate : Nat) :
    gauge.levels (entry.renumber number) width candidate =
      (gauge.levels entry width candidate).mapError (ParseError.renumber number) := by
  unfold levels
  simp only []
  split <;> rfl

theorem place_renumber :
    gauge.place frame (entry.renumber number) =
      (gauge.place frame entry).mapError (ParseError.renumber number) := by
  have hstyle : (entry.renumber number).style frame = entry.style frame := rfl
  have hlead : (entry.renumber number).lead frame = entry.lead frame := rfl
  have hshape : (entry.renumber number).shape = entry.shape := rfl
  unfold place
  rw [hstyle, hlead, hshape]
  cases entry.style frame with
  | bare => rfl
  | connector =>
    simp only [levels_renumber, mapError_bind]
    rfl
  | bullet =>
    simp only [levels_renumber]
    split
    · rfl
    · rw [mapError_bind]
      rfl
  | indent => exact levels_renumber number gauge entry _ _

theorem depth_renumber :
    gauge.depth frame (entry.renumber number) =
      (gauge.depth frame entry).mapError (ParseError.renumber number) := by
  have hstyle : (entry.renumber number).style frame = entry.style frame := rfl
  have hshape : (entry.renumber number).shape = entry.shape := rfl
  rw [depth_eq, depth_eq, hstyle, hshape, noteWhitespace_renumber, mapError_bind]
  congr 1
  funext noted
  split
  · rfl
  · rw [noteStyle_renumber, mapError_bind]
    congr 1
    funext styled
    exact place_renumber number styled frame entry

end Gauge

namespace Block

theorem outlineBelow_renumber (frame : Frame) (root : Nat) (gauge : Gauge) (last : Nat)
    (entries : List Entry) :
    outlineBelow frame root gauge last (entries.map (Entry.renumber number)) =
      (outlineBelow frame root gauge last entries).mapError (ParseError.renumber number) := by
  induction entries generalizing gauge last with
  | nil => rfl
  | cons entry rest ih =>
    rw [List.map_cons, outlineBelow, outlineBelow, Gauge.depth_renumber, mapError_bind]
    congr 1
    funext step
    obtain ⟨depth, next⟩ := step
    simp only []
    split
    · rfl
    · split
      · rfl
      · rw [ih, mapError_bind]
        rfl

theorem outline_renumber (block : List Entry) :
    outline (block.map (Entry.renumber number)) =
      (outline block).mapError (ParseError.renumber number) := by
  cases block with
  | nil => rfl
  | cons first rest =>
    rw [List.map_cons, outline, outline]
    simp only []
    rw [Gauge.depth_renumber, mapError_bind]
    congr 1
    funext step
    obtain ⟨root, gauge⟩ := step
    simp only []
    rw [outlineBelow_renumber, mapError_bind]
    rfl

/-- A block with its lines numbered anew has the same trees, or the same fault by its new number. -/
theorem trees_renumber (block : List Entry) :
    trees (block.map (Entry.renumber number)) =
      (trees block).mapError (ParseError.renumber number) := by
  rw [trees, outline_renumber, trees, mapError_map]

end Block

end Diagram

end TreeSketch
