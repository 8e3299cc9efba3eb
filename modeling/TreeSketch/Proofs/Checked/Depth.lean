import TreeSketch.Proofs.Checked.Access
import TreeSketch.Proofs.Diagram.Fault

/-!
# Depths by divisions

The depth of an entry, with the marker of its margin cut out by an offset and its lead divided by the
width of a level. A level without a width is a trap: the first width that counts becomes the level, and
widths that count are positive (`Gauge.Measured`). So every division can be made, and the depth is that of
`Gauge.depth` (`depth_eq`).
-/

namespace TreeSketch.Diagram.Checked

open Text (HasAt)
open TreeSketch.Checked

variable {ε : Type}

/-- The measures of a margin that starts with the characters `lead`. What follows them is the marker. -/
def marked (style : Style) (margin lead : List Char) : TreeSketch.Checked ε Shape := do
  let marker ← slice margin (Text.byteSize lead) (Text.byteSize margin)
  return Shape.measure style lead marker.length

/-- The measures of a margin. -/
def shapeOf (margin : List Char) : TreeSketch.Checked ε Shape :=
  match Margin.splitConnector? margin with
  | some (lead, _) => marked .connector margin lead
  | none =>
    match Margin.splitBullet? margin with
    | some (lead, _) => marked .bullet margin lead
    | none => .ok (if margin = [] then Shape.measure .bare [] 0 else Shape.measure .indent margin 0)

/-- The number of levels in a width; the first width that counts, `candidate`, becomes the level. -/
def levels (gauge : Gauge) (entry : Entry) (width candidate : Nat) :
    TreeSketch.Checked ParseError (Nat × Gauge) :=
  let unit := gauge.unit.getD candidate
  if unit = 0 then fail .unit
  else do
    let left ← remainder width unit
    if left = 0 then
      let count ← quotient width unit
      return (count, { gauge with unit := some unit })
    else
      refuse (entry.misplaced (.partialUnit width unit))

/-- The depth of an entry of this style, whose lead goes `lead` characters beyond the common one. -/
def place (gauge : Gauge) (frame : Frame) (entry : Entry) (style : Style) (lead markerWidth : Nat) :
    TreeSketch.Checked ParseError (Nat × Gauge) :=
  match style with
  | .bare => .ok (0, gauge)
  | .connector => do
    let (count, gauge) ← levels gauge entry lead markerWidth
    return (count + 1, gauge)
  | .bullet =>
    let offset := if frame.startsBare then 1 else 0
    if lead = 0 then .ok (offset, gauge)
    else do
      let (count, gauge) ← levels gauge entry lead lead
      return (count + offset, gauge)
  | .indent => levels gauge entry lead lead

/-- The depth of an entry within its block, and what is known after it. -/
def depth (gauge : Gauge) (frame : Frame) (entry : Entry) :
    TreeSketch.Checked ParseError (Nat × Gauge) := do
  let shape ← shapeOf entry.margin
  let noted ← lift (gauge.noteWhitespace entry shape)
  if shape.leadWidth < frame.base then
    refuse (entry.misplaced .aboveRoot)
  else
    let lead := shape.leadWidth - frame.base
    let style := if shape.style = .indent && lead = 0 then .bare else shape.style
    let styled ← lift (noted.noteStyle entry style)
    place styled frame entry style lead shape.markerWidth

/-! ## Shapes -/

theorem marked_eq {margin lead : List Char} (h : lead <+: margin) (style : Style) :
    (marked style margin lead : TreeSketch.Checked ε Shape) =
      .ok (Shape.measure style lead (margin.length - lead.length)) := by
  obtain ⟨marker, rfl⟩ := h
  have hmarker : HasAt (lead ++ marker) (Text.byteSize lead) marker := by
    simpa using (HasAt.self (lead ++ marker)).right
  rw [marked, slice_of_hasAt hmarker (Text.byteSize_append _ _), ok_bind, List.length_append,
    Nat.add_sub_cancel_left]
  rfl

/-- The marker of a margin starts behind its lead. -/
theorem shapeOf_eq (margin : List Char) :
    (shapeOf margin : TreeSketch.Checked ε Shape) = .ok (Shape.ofMargin margin) := by
  rw [shapeOf, Shape.ofMargin]
  cases hconnector : Margin.splitConnector? margin with
  | some split =>
    obtain ⟨connector, -, hmargin, -⟩ := Margin.eq_append_of_splitConnector? hconnector
    exact marked_eq ⟨connector ++ split.2, hmargin.symm⟩ .connector
  | none =>
    cases hbullet : Margin.splitBullet? margin with
    | some split =>
      obtain ⟨bullet, -, hmargin, -⟩ := Margin.eq_append_of_splitBullet? hbullet
      exact marked_eq ⟨bullet ++ split.2, hmargin.symm⟩ .bullet
    | none => rfl

/-! ## Levels -/

variable {gauge : Gauge}

theorem levels_eq (h : gauge.Measured) (entry : Entry) (width : Nat) {candidate : Nat}
    (hpos : 0 < candidate) :
    levels gauge entry width candidate = lift (gauge.levels entry width candidate) := by
  have hunit := h.getD_pos hpos
  have hne : gauge.unit.getD candidate ≠ 0 := Nat.pos_iff_ne_zero.mp hunit
  simp only [levels, Gauge.levels, if_neg hne, remainder_of_pos hunit, quotient_of_pos hunit, ok_bind]
  by_cases hwhole : width % gauge.unit.getD candidate = 0
  · simp [hne, hwhole, pure, Except.pure]
  · simp [hwhole]

/-- The widths that count are those of connectors and of leads that are not empty. -/
theorem place_eq (h : gauge.Measured) (frame : Frame) (entry : Entry) :
    place gauge frame entry (entry.style frame) (entry.lead frame) entry.shape.markerWidth =
      lift (gauge.place frame entry) := by
  unfold place Gauge.place
  cases hstyle : entry.style frame with
  | bare => rfl
  | connector =>
    have hpos : 0 < entry.shape.markerWidth :=
      Shape.markerWidth_pos (Entry.shape_style_of_connector hstyle)
    simp only [levels_eq h entry _ hpos]
    exact lift_bind_eq fun _ _ => rfl
  | bullet =>
    simp only []
    split
    · rfl
    · rename_i hlead
      rw [levels_eq h entry _ (Nat.pos_of_ne_zero hlead)]
      exact lift_bind_eq fun _ _ => rfl
  | indent =>
    exact levels_eq h entry _ (Nat.pos_of_ne_zero (Entry.lead_ne_zero_of_indent hstyle))

/-- An entry of a block is measured without a division by zero. -/
theorem depth_eq (h : gauge.Measured) (frame : Frame) (entry : Entry) :
    depth gauge frame entry = lift (gauge.depth frame entry) := by
  rw [Gauge.depth_eq, depth, shapeOf_eq, ok_bind]
  refine lift_bind_eq fun noted hnoted => ?_
  by_cases hlead : entry.shape.leadWidth < frame.base
  · rw [if_pos hlead]
    exact if_pos hlead
  · rw [if_neg hlead]
    refine (if_neg hlead).trans (lift_bind_eq fun styled hstyled => ?_)
    exact place_eq ((h.of_noteWhitespace hnoted).of_noteStyle hstyled) frame entry

end TreeSketch.Diagram.Checked
