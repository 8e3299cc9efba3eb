import TreeSketch.Proofs.Diagram.Regular

/-!
# Faults of a block

What can be wrong with an entry of a block. `Entry.Faults` lists the faults with what is known of each: the
fault names the line of the entry, a lead that is not a number of levels is no multiple of a level that has a
width, and a jump skips a level. Every fault of a block is one of one of its entries
(`Block.exists_faults_of_trees`).

The level has a width because the first width that counts becomes the level, and widths that count are
positive. `Gauge.Measured` says this of a gauge, and `Measured.of_depth` that it stays so.
-/

namespace TreeSketch.Diagram

/-- The faults that an entry of a block can have. -/
inductive Entry.Faults (entry : Entry) : ParseError → Prop
  | mixedWhitespace : entry.Faults (entry.misplaced .mixedWhitespace)
  | mixedStyles {expected found : Style} (h : expected ≠ found) :
    entry.Faults (.mixedStyles entry.line expected found)
  | aboveRoot : entry.Faults (entry.misplaced .aboveRoot)
  | partialUnit {width unit : Nat} (hpos : 0 < unit) (h : ¬ unit ∣ width) :
    entry.Faults (entry.misplaced (.partialUnit width unit))
  | jump {last next : Nat} (h : last + 1 < next) : entry.Faults (entry.misplaced (.jump last next))

namespace Gauge

/-- If the width of a level is known, it is positive. -/
def Measured (gauge : Gauge) : Prop :=
  ∀ unit, gauge.unit = some unit → 0 < unit

variable {gauge next : Gauge} {frame : Frame} {entry : Entry} {fault : ParseError}

/-! ## Widths of levels -/

theorem measured_unset : Measured unset :=
  nofun

theorem Measured.getD_pos (h : gauge.Measured) {candidate : Nat} (hpos : 0 < candidate) :
    0 < gauge.unit.getD candidate := by
  cases hunit : gauge.unit with
  | none => exact hpos
  | some unit => exact h unit hunit

theorem Measured.of_noteWhitespace (h : gauge.Measured)
    (hnext : gauge.noteWhitespace entry entry.shape = .ok next) : next.Measured := by
  obtain ⟨-, -, rfl⟩ := noteWhitespace_eq_ok_iff.mp hnext
  exact h

theorem Measured.of_noteStyle (h : gauge.Measured)
    (hnext : gauge.noteStyle entry (entry.style frame) = .ok next) : next.Measured := by
  obtain ⟨-, rfl⟩ := noteStyle_eq_ok_iff.mp hnext
  exact h

theorem Measured.of_place (h : gauge.Measured) {depth : Nat}
    (hnext : gauge.place frame entry = .ok (depth, next)) : next.Measured := by
  obtain ⟨-, -, rfl⟩ := (place_eq_ok_iff h).mp hnext
  intro unit hunit
  rcases Option.or_eq_some_iff.mp hunit with hknown | ⟨-, hown⟩
  · exact h unit hknown
  · exact Entry.pos_of_unit? hown

/-- A known width stays positive. -/
theorem Measured.of_depth (h : gauge.Measured) {depth : Nat}
    (hnext : gauge.depth frame entry = .ok (depth, next)) : next.Measured := by
  rw [depth_eq] at hnext
  obtain ⟨noted, hnoted, hnext⟩ := bind_eq_ok_iff.mp hnext
  split at hnext
  · cases hnext
  · obtain ⟨styled, hstyled, hplaced⟩ := bind_eq_ok_iff.mp hnext
    exact ((h.of_noteWhitespace hnoted).of_noteStyle hstyled).of_place hplaced

/-! ## Faults of an entry -/

theorem faults_of_noteWhitespace {shape : Shape}
    (h : gauge.noteWhitespace entry shape = .error fault) : entry.Faults fault := by
  unfold noteWhitespace at h
  cases htabs : shape.leadHasTabs <;> cases hspaces : shape.leadHasSpaces <;>
    simp only [htabs, hspaces] at h <;> try split at h
  all_goals
    cases h
  all_goals exact .mixedWhitespace

theorem faults_of_noteStyle {style : Style} (h : gauge.noteStyle entry style = .error fault) :
    entry.Faults fault := by
  unfold noteStyle at h
  split at h
  · cases h
  · split at h
    · cases h
    · split at h
      · cases h
      · rename_i hne
        cases h
        exact .mixedStyles hne

theorem faults_of_levels {width candidate : Nat} (hpos : 0 < gauge.unit.getD candidate)
    (h : gauge.levels entry width candidate = .error fault) : entry.Faults fault := by
  have hne : gauge.unit.getD candidate ≠ 0 := Nat.pos_iff_ne_zero.mp hpos
  simp only [levels, hne, decide_false, Bool.false_or] at h
  split at h
  · rename_i hleft
    cases h
    refine .partialUnit hpos ?_
    rw [Nat.dvd_iff_mod_eq_zero]
    exact of_decide_eq_true hleft
  · cases h

/-- The widths that count are those of connectors and of leads that are not empty. -/
theorem faults_of_place (hgauge : gauge.Measured) (h : gauge.place frame entry = .error fault) :
    entry.Faults fault := by
  unfold place at h
  split at h
  case h_1 => cases h
  case h_2 hstyle =>
    have hpos : 0 < entry.shape.markerWidth :=
      Shape.markerWidth_pos (Entry.shape_style_of_connector hstyle)
    rcases bind_eq_error_iff.mp h with h | ⟨_, -, h⟩
    · exact faults_of_levels (hgauge.getD_pos hpos) h
    · cases h
  case h_3 =>
    simp only [] at h
    split at h
    · cases h
    · rename_i hlead
      rcases bind_eq_error_iff.mp h with h | ⟨_, -, h⟩
      · exact faults_of_levels (hgauge.getD_pos (Nat.pos_of_ne_zero hlead)) h
      · cases h
  case h_4 hstyle =>
    have hlead := Entry.lead_ne_zero_of_indent hstyle
    exact faults_of_levels (hgauge.getD_pos (Nat.pos_of_ne_zero hlead)) h

/-- An entry that cannot be measured has a fault. -/
theorem faults_of_depth (hgauge : gauge.Measured) (h : gauge.depth frame entry = .error fault) :
    entry.Faults fault := by
  rw [depth_eq] at h
  rcases bind_eq_error_iff.mp h with h | ⟨noted, hnoted, h⟩
  · exact faults_of_noteWhitespace h
  · split at h
    · cases h
      exact .aboveRoot
    · rcases bind_eq_error_iff.mp h with h | ⟨styled, hstyled, h⟩
      · exact faults_of_noteStyle h
      · exact faults_of_place ((hgauge.of_noteWhitespace hnoted).of_noteStyle hstyled) h

end Gauge

/-! ## Faults of a block -/

namespace Block

variable {frame : Frame} {fault : ParseError}

theorem exists_faults_of_outlineBelow {root last : Nat} {gauge : Gauge} (hgauge : gauge.Measured)
    {entries : List Entry} (h : outlineBelow frame root gauge last entries = .error fault) :
    ∃ entry ∈ entries, entry.Faults fault := by
  induction entries generalizing gauge last with
  | nil => cases h
  | cons entry rest ih =>
    rw [outlineBelow] at h
    rcases bind_eq_error_iff.mp h with h | ⟨⟨depth, next⟩, hdepth, h⟩
    · exact ⟨entry, List.mem_cons_self, Gauge.faults_of_depth hgauge h⟩
    · simp only [] at h
      split at h
      · cases h
        exact ⟨entry, List.mem_cons_self, .aboveRoot⟩
      · split at h
        · rename_i hjump
          cases h
          exact ⟨entry, List.mem_cons_self, .jump hjump⟩
        · rcases bind_eq_error_iff.mp h with h | ⟨_, -, h⟩
          · obtain ⟨other, hmem, hfaults⟩ := ih (hgauge.of_depth hdepth) h
            exact ⟨other, List.mem_cons_of_mem entry hmem, hfaults⟩
          · cases h

/-- A block without trees has an entry with a fault, and is refused for it. -/
theorem exists_faults_of_trees {block : List Entry} (h : trees block = .error fault) :
    ∃ entry ∈ block, entry.Faults fault := by
  have houtline : outline block = .error fault := map_eq_error_iff.mp h
  cases block with
  | nil => cases houtline
  | cons first rest =>
    rw [outline] at houtline
    rcases bind_eq_error_iff.mp houtline with h | ⟨⟨root, gauge⟩, hroot, h⟩
    · exact ⟨first, List.mem_cons_self, Gauge.faults_of_depth Gauge.measured_unset h⟩
    · rcases bind_eq_error_iff.mp h with h | ⟨_, -, h⟩
      · obtain ⟨entry, hmem, hfaults⟩ :=
          exists_faults_of_outlineBelow (Gauge.measured_unset.of_depth hroot) h
        exact ⟨entry, List.mem_cons_of_mem first hmem, hfaults⟩
      · cases h

end Block

end TreeSketch.Diagram
