import Mathlib.Data.List.Chain
import TreeSketch.Proofs.Diagram.Reading

/-!
# Blocks whose indentation adds up

`Gauge` learns what counts as a level while it goes down a block. This module says what a block as a whole has
to look like. `Block.Regular` is a condition on all the margins at once: they agree on the blank characters and
on the style, none stands before the first, the leads are multiples of one unit, and the depths that follow
from it never fall below the first and never skip a level. A block is read exactly when it is regular, and then
its trees list the entries one by one, at these depths (`Block.exists_trees_iff_regular`).

The two meet in `Gauge.after`, which says what the gauge holds behind some entries: the first style, the first
unit and the first blank characters that these entries have to offer. One more entry is measured exactly when
it joins them (`Gauge.depth_eq_ok_iff`), and a regular block stays regular exactly when the entry that joins it
also stands at a depth that may follow (`Block.regular_concat_iff`).
-/

namespace TreeSketch.Diagram

/-! ## Values that agree -/

/-- Where the function has a value on the list, it is the same one. -/
def Agree {α β : Type} (f : α → Option β) (xs : List α) : Prop :=
  ∀ x ∈ xs, ∀ y ∈ xs, ∀ a b, f x = some a → f y = some b → a = b

/-- A value agrees with the first one of a list. -/
def FitsFirst {α β : Type} (f : α → Option β) (xs : List α) (x : α) : Prop :=
  ∀ a, f x = some a → xs.findSome? f = none ∨ xs.findSome? f = some a

/-- To agree with all values, it is enough to agree with the first one. -/
theorem agree_concat_iff {α β : Type} {f : α → Option β} {xs : List α} {x : α} :
    Agree f (xs ++ [x]) ↔ Agree f xs ∧ FitsFirst f xs x := by
  constructor
  · intro h
    refine ⟨fun y hy z hz => h y (List.mem_append_left _ hy) z (List.mem_append_left _ hz), ?_⟩
    intro a ha
    cases hfirst : xs.findSome? f with
    | none => exact Or.inl rfl
    | some b =>
      obtain ⟨y, hy, hb⟩ := List.exists_of_findSome?_eq_some hfirst
      exact Or.inr (congrArg some (h y (List.mem_append_left _ hy) x (by simp) b a hb ha))
  · rintro ⟨hagree, hfits⟩
    -- Every value before the last one is the first one, since they agree.
    have hbefore : ∀ y ∈ xs, ∀ a b, f y = some a → f x = some b → a = b := by
      intro y hy a b ha hb
      rcases hfits b hb with hnone | hsome
      · rw [List.findSome?_eq_none_iff] at hnone
        rw [hnone y hy] at ha
        cases ha
      · obtain ⟨z, hz, hzb⟩ := List.exists_of_findSome?_eq_some hsome
        exact hagree y hy z hz a b ha hzb
    intro y hy z hz a b ha hb
    rw [List.mem_append, List.mem_singleton] at hy hz
    rcases hy with hy | rfl
    · rcases hz with hz | rfl
      · exact hagree y hy z hz a b ha hb
      · exact hbefore y hy a b ha hb
    · rcases hz with hz | rfl
      · exact (hbefore z hz b a hb ha).symm
      · exact Option.some.inj (ha.symm.trans hb)

/-! ## Measures of an entry -/

namespace Shape

theorem markerWidth_pos {margin : List Char} (h : (ofMargin margin).style = .connector) :
    0 < (ofMargin margin).markerWidth := by
  rw [ofMargin] at h ⊢
  split at h
  · rename_i lead rest hsplit
    obtain ⟨connector, hne, hmargin, -⟩ := Margin.eq_append_of_splitConnector? hsplit
    have hlength := congrArg List.length hmargin
    have hpos := List.length_pos_iff.mpr hne
    rw [List.length_append, List.length_append] at hlength
    simp only [measure]
    omega
  · split at h
    · cases h
    · split at h <;> cases h

end Shape

namespace Entry

variable (frame : Frame) (entry : Entry)

/-- The measures of the entry's margin. -/
def shape : Shape :=
  Shape.ofMargin entry.margin

/-- The width of the entry's lead beyond the common one. -/
def lead : Nat :=
  entry.shape.leadWidth - frame.base

/-- The style that counts: indentation that does not go beyond the common lead is none. -/
def style : Style :=
  if entry.shape.style = .indent && entry.lead frame = 0 then .bare else entry.shape.style

/-- The style of an entry that is not bare. -/
def style? : Option Style :=
  if entry.style frame = .bare then none else some (entry.style frame)

/-- The blank characters in the lead of an entry. -/
def whitespace? : Option Whitespace :=
  if entry.shape.leadHasTabs then some .tabs
  else if entry.shape.leadHasSpaces then some .spaces
  else none

/-- The width of a level as the entry shows it: the connector, or the lead of a bullet or an indentation, if
there is one. -/
def unit? : Option Nat :=
  match entry.style frame with
  | .bare => none
  | .connector => some entry.shape.markerWidth
  | .bullet | .indent => if entry.lead frame = 0 then none else some (entry.lead frame)

/-- The depth of the entry, when a level is `unit` wide. -/
def depth (unit : Nat) : Nat :=
  match entry.style frame with
  | .bare => 0
  | .connector => entry.lead frame / unit + 1
  | .bullet => entry.lead frame / unit + if frame.startsBare then 1 else 0
  | .indent => entry.lead frame / unit

variable {frame : Frame} {entry : Entry}

theorem lead_ne_zero_of_indent (h : entry.style frame = .indent) : entry.lead frame ≠ 0 := by
  intro hlead
  rw [style, hlead] at h
  split at h
  · cases h
  · rename_i hindent
    simp [h] at hindent

theorem shape_style_of_connector (h : entry.style frame = .connector) :
    entry.shape.style = .connector := by
  rw [style] at h
  split at h
  · cases h
  · exact h

/-- A level has a width. -/
theorem pos_of_unit? {unit : Nat} (h : entry.unit? frame = some unit) : 0 < unit := by
  rw [unit?] at h
  split at h
  · cases h
  · rename_i hstyle
    cases h
    exact Shape.markerWidth_pos (shape_style_of_connector hstyle)
  all_goals
    split at h
    · cases h
    · cases h
      omega

/-- An entry that shows no unit stands at the edge of the block. -/
theorem lead_eq_zero_of_unit? (h : entry.unit? frame = none) (hstyle : entry.style frame ≠ .bare) :
    entry.lead frame = 0 := by
  rw [unit?] at h
  split at h
  · exact absurd ‹_› hstyle
  · cases h
  all_goals simpa using h

/-- For an entry that shows no unit, it does not matter how wide a level is. -/
theorem depth_eq_of_unit? (h : entry.unit? frame = none) (unit other : Nat) :
    entry.depth frame unit = entry.depth frame other := by
  rw [unit?] at h
  rw [depth, depth]
  split at h
  · rfl
  · cases h
  all_goals
    have hlead : entry.lead frame = 0 := by simpa using h
    simp only [hlead, Nat.zero_div]

end Entry

/-! ## What the gauge holds -/

namespace Gauge

/-- The last step of `Gauge.depth`: the depth of an entry whose blanks and style have been noted. -/
def place (gauge : Gauge) (frame : Frame) (entry : Entry) : Except ParseError (Nat × Gauge) :=
  match entry.style frame with
  | .bare => .ok (0, gauge)
  | .connector => do
    let (levels, gauge) ← gauge.levels entry (entry.lead frame) entry.shape.markerWidth
    .ok (levels + 1, gauge)
  | .bullet =>
    let offset := if frame.startsBare then 1 else 0
    if entry.lead frame = 0 then .ok (offset, gauge)
    else do
      let (levels, gauge) ← gauge.levels entry (entry.lead frame) (entry.lead frame)
      .ok (levels + offset, gauge)
  | .indent => gauge.levels entry (entry.lead frame) (entry.lead frame)

variable {frame : Frame} {gauge next : Gauge} {entry : Entry}

theorem noteWhitespace_eq_ok_iff :
    gauge.noteWhitespace entry entry.shape = .ok next ↔
      ¬ (entry.shape.leadHasTabs = true ∧ entry.shape.leadHasSpaces = true) ∧
      (∀ used, entry.whitespace? = some used →
        gauge.whitespace = none ∨ gauge.whitespace = some used) ∧
      next = { gauge with whitespace := gauge.whitespace.or entry.whitespace? } := by
  obtain ⟨style, unit, whitespace⟩ := gauge
  rw [noteWhitespace, Entry.whitespace?]
  cases entry.shape.leadHasTabs <;> cases entry.shape.leadHasSpaces <;>
    rcases whitespace with _ | _ | _ <;> simp [eq_comm]

theorem noteStyle_eq_ok_iff :
    gauge.noteStyle entry (entry.style frame) = .ok next ↔
      (∀ style, entry.style? frame = some style →
        gauge.style = none ∨ gauge.style = some style) ∧
      next = { gauge with style := gauge.style.or (entry.style? frame) } := by
  obtain ⟨style, unit, whitespace⟩ := gauge
  rw [noteStyle, Entry.style?]
  by_cases hbare : entry.style frame = .bare
  · simp [hbare, eq_comm]
  · cases style with
    | none => simp [hbare, eq_comm]
    | some expected =>
      by_cases hsame : expected = entry.style frame
      · simp [hbare, hsame, eq_comm]
      · simp [hbare, hsame]

/-- A width is a number of levels when it is a multiple of the unit. -/
theorem levels_eq_ok_iff {width candidate count : Nat} (hpos : 0 < gauge.unit.getD candidate) :
    gauge.levels entry width candidate = .ok (count, next) ↔
      gauge.unit.getD candidate ∣ width ∧ count = width / gauge.unit.getD candidate ∧
      next = { gauge with unit := some (gauge.unit.getD candidate) } := by
  have hne : gauge.unit.getD candidate ≠ 0 := Nat.pos_iff_ne_zero.mp hpos
  simp only [levels, hne, decide_false, Bool.false_or, Nat.dvd_iff_mod_eq_zero]
  by_cases hwhole : width % gauge.unit.getD candidate = 0
  · simp [hwhole, eq_comm]
  · simp [hwhole]

/-- The depth of an entry whose style has been noted, and what is known after it. -/
theorem depth_eq (gauge : Gauge) (frame : Frame) (entry : Entry) :
    gauge.depth frame entry = (do
      let noted ← gauge.noteWhitespace entry entry.shape
      if entry.shape.leadWidth < frame.base then .error (entry.misplaced .aboveRoot)
      else
        let styled ← noted.noteStyle entry (entry.style frame)
        styled.place frame entry) := by
  rw [depth]
  rfl

/-- With a unit of its own, an entry is measured in levels. -/
theorem levels_own_eq_ok_iff (hpos : ∀ unit, gauge.unit = some unit → 0 < unit) {own : Nat}
    (hown : entry.unit? frame = some own) {count : Nat} :
    gauge.levels entry (entry.lead frame) own = .ok (count, next) ↔
      (gauge.unit.or (some own)).getD 0 ∣ entry.lead frame ∧
      count = entry.lead frame / (gauge.unit.or (some own)).getD 0 ∧
      next = { gauge with unit := gauge.unit.or (some own) } := by
  have hor : gauge.unit.or (some own) = some (gauge.unit.getD own) := by
    cases gauge.unit <;> rfl
  have hunit : 0 < gauge.unit.getD own := by
    cases hknown : gauge.unit with
    | none => exact Entry.pos_of_unit? hown
    | some unit => exact hpos unit hknown
  rw [levels_eq_ok_iff hunit, hor, Option.getD_some]

theorem levels_offset_eq_ok_iff (hpos : ∀ unit, gauge.unit = some unit → 0 < unit) {own : Nat}
    (hown : entry.unit? frame = some own) {offset depth : Nat} :
    (gauge.levels entry (entry.lead frame) own >>= fun read => .ok (read.1 + offset, read.2)) =
        .ok (depth, next) ↔
      (gauge.unit.or (some own)).getD 0 ∣ entry.lead frame ∧
      depth = entry.lead frame / (gauge.unit.or (some own)).getD 0 + offset ∧
      next = { gauge with unit := gauge.unit.or (some own) } := by
  rw [bind_eq_ok_iff]
  constructor
  · rintro ⟨⟨count, read⟩, hread, heq⟩
    obtain ⟨hdvd, rfl, rfl⟩ := (levels_own_eq_ok_iff hpos hown).mp hread
    cases heq
    exact ⟨hdvd, rfl, rfl⟩
  · rintro ⟨hdvd, rfl, rfl⟩
    exact ⟨_, (levels_own_eq_ok_iff hpos hown).mpr ⟨hdvd, rfl, rfl⟩, rfl⟩

/-- An entry can be placed when its lead is a number of units, be the unit known or its own. -/
theorem place_eq_ok_iff (hpos : ∀ unit, gauge.unit = some unit → 0 < unit) {depth : Nat} :
    gauge.place frame entry = .ok (depth, next) ↔
      (entry.style frame ≠ .bare →
        (gauge.unit.or (entry.unit? frame)).getD 0 ∣ entry.lead frame) ∧
      depth = entry.depth frame ((gauge.unit.or (entry.unit? frame)).getD 0) ∧
      next = { gauge with unit := gauge.unit.or (entry.unit? frame) } := by
  cases hstyle : entry.style frame with
  | bare =>
    have hown : entry.unit? frame = none := by rw [Entry.unit?, hstyle]
    rw [place, Entry.depth, hstyle, hown, Option.or_none]
    constructor
    · rintro ⟨⟩
      exact ⟨fun hbare => absurd rfl hbare, rfl, rfl⟩
    · rintro ⟨-, rfl, rfl⟩
      rfl
  | connector =>
    have hown : entry.unit? frame = some entry.shape.markerWidth := by rw [Entry.unit?, hstyle]
    rw [place, Entry.depth, hstyle, hown]
    simp only [ne_eq, reduceCtorEq, not_false_eq_true, true_imp_iff]
    exact levels_offset_eq_ok_iff hpos hown
  | bullet =>
    rw [place, Entry.depth, hstyle]
    simp only [ne_eq, reduceCtorEq, not_false_eq_true, true_imp_iff]
    by_cases hlead : entry.lead frame = 0
    · have hown : entry.unit? frame = none := by
        rw [Entry.unit?, hstyle]
        exact if_pos hlead
      rw [if_pos hlead, hown, hlead, Nat.zero_div, Nat.zero_add, Option.or_none]
      constructor
      · rintro ⟨⟩
        exact ⟨Nat.dvd_zero _, rfl, rfl⟩
      · rintro ⟨-, rfl, rfl⟩
        rfl
    · have hown : entry.unit? frame = some (entry.lead frame) := by
        rw [Entry.unit?, hstyle]
        exact if_neg hlead
      rw [if_neg hlead, hown]
      exact levels_offset_eq_ok_iff hpos hown
  | indent =>
    have hown : entry.unit? frame = some (entry.lead frame) := by
      rw [Entry.unit?, hstyle]
      exact if_neg (Entry.lead_ne_zero_of_indent hstyle)
    rw [place, Entry.depth, hstyle, hown]
    simp only [ne_eq, reduceCtorEq, not_false_eq_true, true_imp_iff]
    exact levels_own_eq_ok_iff hpos hown

/-- What is known behind the entries `seen`: the first style, the first unit and the first blank characters
that they have to offer. -/
def after (frame : Frame) (seen : List Entry) : Gauge where
  style := seen.findSome? (Entry.style? frame)
  unit := seen.findSome? (Entry.unit? frame)
  whitespace := seen.findSome? Entry.whitespace?

end Gauge

/-! ## Regular blocks -/

namespace Block

/-- The width of a level: the first one that an entry shows. It does not matter if there is none. -/
def unit (frame : Frame) (block : List Entry) : Nat :=
  (block.findSome? (Entry.unit? frame)).getD 0

/-- The depths of the entries, from what the block says about all of them. -/
def depths (frame : Frame) (block : List Entry) : List Nat :=
  block.map fun entry => entry.depth frame (unit frame block)

/-- The margins of the entries add up. -/
structure Regular (frame : Frame) (block : List Entry) : Prop where
  /-- No lead mixes tabs with other blanks. -/
  unmixed : ∀ entry ∈ block,
    ¬ (entry.shape.leadHasTabs = true ∧ entry.shape.leadHasSpaces = true)
  /-- The leads that hold either agree on which. -/
  whitespace_agrees : Agree Entry.whitespace? block
  /-- No lead ends before the common one. -/
  base_le : ∀ entry ∈ block, frame.base ≤ entry.shape.leadWidth
  /-- The entries that are not bare share one style. -/
  style_agrees : Agree (Entry.style? frame) block
  /-- Leads are multiples of the unit. -/
  unit_dvd : ∀ entry ∈ block, entry.style frame ≠ .bare → unit frame block ∣ entry.lead frame
  /-- No entry stands above the first one. -/
  first_le : ∀ first ∈ (depths frame block).head?, ∀ depth ∈ depths frame block, first ≤ depth
  /-- No entry is more than one level below the entry before it. -/
  steps : (depths frame block).IsChain fun depth next => next ≤ depth + 1

/-- The margin of an entry goes together with those of the entries `seen`. -/
structure Joins (frame : Frame) (seen : List Entry) (entry : Entry) : Prop where
  unmixed : ¬ (entry.shape.leadHasTabs = true ∧ entry.shape.leadHasSpaces = true)
  whitespace_fits : FitsFirst Entry.whitespace? seen entry
  base_le : frame.base ≤ entry.shape.leadWidth
  style_fits : FitsFirst (Entry.style? frame) seen entry
  unit_dvd : entry.style frame ≠ .bare → unit frame (seen ++ [entry]) ∣ entry.lead frame

variable {frame : Frame} {seen rest : List Entry} {entry : Entry}

/-- The unit of some entries, as far as it matters to them, is that of any block that starts with them. -/
theorem unit_append_cases (seen rest : List Entry) :
    unit frame (seen ++ rest) = unit frame seen ∨ ∀ entry ∈ seen, entry.unit? frame = none := by
  cases hfirst : seen.findSome? (Entry.unit? frame) with
  | none => exact Or.inr (List.findSome?_eq_none_iff.mp hfirst)
  | some own =>
    refine Or.inl ?_
    rw [unit, unit, List.findSome?_append, hfirst, Option.some_or]

theorem depth_unit_append (hmem : entry ∈ seen) :
    entry.depth frame (unit frame (seen ++ rest)) = entry.depth frame (unit frame seen) := by
  rcases unit_append_cases seen rest with hunit | hnone
  · rw [hunit]
  · exact Entry.depth_eq_of_unit? (hnone entry hmem) _ _

theorem unit_append_dvd_iff (hmem : entry ∈ seen) (hstyle : entry.style frame ≠ .bare) :
    unit frame (seen ++ rest) ∣ entry.lead frame ↔ unit frame seen ∣ entry.lead frame := by
  rcases unit_append_cases seen rest with hunit | hnone
  · rw [hunit]
  · rw [Entry.lead_eq_zero_of_unit? (hnone entry hmem) hstyle]
    exact iff_of_true (Nat.dvd_zero _) (Nat.dvd_zero _)

/-- An entry at the end has its own depth, and changes none before it. -/
theorem depths_concat (frame : Frame) (seen : List Entry) (entry : Entry) :
    depths frame (seen ++ [entry]) =
      depths frame seen ++ [entry.depth frame (unit frame (seen ++ [entry]))] := by
  rw [depths, List.map_append, List.map_singleton]
  exact congrArg (· ++ _) (List.map_congr_left fun _ hmem => depth_unit_append hmem)

/-- The first depth stays the least one when one more depth is not below it. -/
theorem first_le_concat_iff {depths : List Nat} {depth : Nat} :
    (∀ first ∈ (depths ++ [depth]).head?, ∀ other ∈ depths ++ [depth], first ≤ other) ↔
      (∀ first ∈ depths.head?, ∀ other ∈ depths, first ≤ other) ∧
      ∀ first ∈ depths.head?, first ≤ depth := by
  cases depths with
  | nil => simp
  | cons first more => simp [or_imp, forall_and]

theorem steps_concat_iff {depths : List Nat} {depth : Nat} :
    (depths ++ [depth]).IsChain (fun depth next => next ≤ depth + 1) ↔
      depths.IsChain (fun depth next => next ≤ depth + 1) ∧
      ∀ last ∈ depths.getLast?, depth ≤ last + 1 := by
  rw [List.isChain_append]
  simp

/-- A regular block stays regular exactly when the entry behind it joins it at a depth that may follow. -/
theorem regular_concat_iff :
    Regular frame (seen ++ [entry]) ↔
      Regular frame seen ∧ Joins frame seen entry ∧
      (∀ first ∈ (depths frame seen).head?,
        first ≤ entry.depth frame (unit frame (seen ++ [entry]))) ∧
      ∀ last ∈ (depths frame seen).getLast?,
        entry.depth frame (unit frame (seen ++ [entry])) ≤ last + 1 := by
  have hdvd : (∀ other ∈ seen, other.style frame ≠ .bare →
        unit frame (seen ++ [entry]) ∣ other.lead frame) ↔
      ∀ other ∈ seen, other.style frame ≠ .bare → unit frame seen ∣ other.lead frame :=
    forall₂_congr fun other hmem => forall_congr' fun hstyle => unit_append_dvd_iff hmem hstyle
  constructor
  · rintro ⟨hunmixed, hwhitespace, hbase, hstyle, hunit, hfirst, hsteps⟩
    rw [List.forall_mem_append, List.forall_mem_singleton] at hunmixed hbase hunit
    rw [agree_concat_iff] at hwhitespace hstyle
    rw [depths_concat] at hfirst hsteps
    rw [first_le_concat_iff] at hfirst
    rw [steps_concat_iff] at hsteps
    exact ⟨⟨hunmixed.1, hwhitespace.1, hbase.1, hstyle.1, hdvd.mp hunit.1, hfirst.1, hsteps.1⟩,
      ⟨hunmixed.2, hwhitespace.2, hbase.2, hstyle.2, hunit.2⟩, hfirst.2, hsteps.2⟩
  · rintro ⟨hseen, hjoins, hfirst, hlast⟩
    refine ⟨?_, agree_concat_iff.mpr ⟨hseen.whitespace_agrees, hjoins.whitespace_fits⟩, ?_,
      agree_concat_iff.mpr ⟨hseen.style_agrees, hjoins.style_fits⟩, ?_, ?_, ?_⟩
    · rw [List.forall_mem_append, List.forall_mem_singleton]
      exact ⟨hseen.unmixed, hjoins.unmixed⟩
    · rw [List.forall_mem_append, List.forall_mem_singleton]
      exact ⟨hseen.base_le, hjoins.base_le⟩
    · rw [List.forall_mem_append, List.forall_mem_singleton]
      exact ⟨hdvd.mpr hseen.unit_dvd, hjoins.unit_dvd⟩
    · rw [depths_concat]
      exact first_le_concat_iff.mpr ⟨hseen.first_le, hfirst⟩
    · rw [depths_concat]
      exact steps_concat_iff.mpr ⟨hseen.steps, hlast⟩

theorem regular_nil (frame : Frame) : Regular frame [] where
  unmixed := nofun
  whitespace_agrees := nofun
  base_le := nofun
  style_agrees := nofun
  unit_dvd := nofun
  first_le := nofun
  steps := List.IsChain.nil

theorem regular_singleton_iff : Regular frame [entry] ↔ Joins frame [] entry := by
  have hconcat : Regular frame ([] ++ [entry]) ↔ _ := regular_concat_iff
  simpa [depths, regular_nil] using hconcat

/-- A block that goes on regularly was regular before. -/
theorem Regular.of_append (h : Regular frame (seen ++ rest)) : Regular frame seen := by
  induction rest using List.reverseRecOn with
  | nil => rwa [List.append_nil] at h
  | append_singleton rest entry ih =>
    rw [← List.append_assoc] at h
    exact ih (regular_concat_iff.mp h).1

end Block

/-! ## One step -/

/-- One more entry is measured exactly when it joins the entries before it. -/
theorem Gauge.depth_eq_ok_iff {frame : Frame} {seen : List Entry} {entry : Entry} {next : Gauge}
    {depth : Nat} :
    (Gauge.after frame seen).depth frame entry = .ok (depth, next) ↔
      Block.Joins frame seen entry ∧
      depth = entry.depth frame (Block.unit frame (seen ++ [entry])) ∧
      next = Gauge.after frame (seen ++ [entry]) := by
  have hunit : Block.unit frame (seen ++ [entry]) =
      ((seen.findSome? (Entry.unit? frame)).or (entry.unit? frame)).getD 0 := by
    rw [Block.unit, List.findSome?_append, List.findSome?_singleton]
  have hafter : Gauge.after frame (seen ++ [entry]) =
      { style := (seen.findSome? (Entry.style? frame)).or (entry.style? frame)
        unit := (seen.findSome? (Entry.unit? frame)).or (entry.unit? frame)
        whitespace := (seen.findSome? Entry.whitespace?).or entry.whitespace? } := by
    simp only [Gauge.after, List.findSome?_append, List.findSome?_singleton]
  have hpos : ∀ unit, seen.findSome? (Entry.unit? frame) = some unit → 0 < unit := by
    intro unit hfirst
    obtain ⟨other, -, hother⟩ := List.exists_of_findSome?_eq_some hfirst
    exact Entry.pos_of_unit? hother
  rw [hafter, hunit, Gauge.depth_eq, bind_eq_ok_iff]
  constructor
  · rintro ⟨noted, hnoted, h⟩
    obtain ⟨hunmixed, hwhitespace, rfl⟩ := noteWhitespace_eq_ok_iff.mp hnoted
    split at h
    · cases h
    · rename_i hbase
      obtain ⟨styled, hstyled, h⟩ := bind_eq_ok_iff.mp h
      obtain ⟨hstyle, rfl⟩ := noteStyle_eq_ok_iff.mp hstyled
      obtain ⟨hdvd, hdepth, rfl⟩ := (place_eq_ok_iff hpos).mp h
      exact ⟨⟨hunmixed, hwhitespace, Nat.not_lt.mp hbase, hstyle,
        fun hne => hunit ▸ hdvd hne⟩, hdepth, rfl⟩
  · rintro ⟨⟨hunmixed, hwhitespace, hbase, hstyle, hdvd⟩, hdepth, rfl⟩
    rw [hunit] at hdvd
    refine ⟨_, noteWhitespace_eq_ok_iff.mpr ⟨hunmixed, hwhitespace, rfl⟩, ?_⟩
    rw [if_neg (Nat.not_lt.mpr hbase)]
    exact bind_eq_ok_iff.mpr ⟨_, noteStyle_eq_ok_iff.mpr ⟨hstyle, rfl⟩,
      (place_eq_ok_iff hpos).mpr ⟨hdvd, hdepth, rfl⟩⟩

/-! ## A whole block -/

namespace Block

variable {frame : Frame} {seen rest : List Entry}

/-- The outline of some entries whose first one stands at the depth `root`. -/
def levelsBelow (frame : Frame) (unit root : Nat) (entries : List Entry) : Outline :=
  entries.map fun entry => (entry.depth frame unit - root, entry.label)

/-- Behind a regular start, the rest of a block is measured exactly when the whole is regular. -/
theorem outlineBelow_eq_ok_iff (hseen : Regular frame seen) {root last : Nat}
    (hfirst : (depths frame seen).head? = some root)
    (hlast : (depths frame seen).getLast? = some (root + last)) {below : Outline} :
    outlineBelow frame root (Gauge.after frame seen) last rest = .ok below ↔
      Regular frame (seen ++ rest) ∧
      below = levelsBelow frame (unit frame (seen ++ rest)) root rest := by
  induction rest generalizing seen last below with
  | nil =>
    rw [outlineBelow, List.append_nil]
    constructor
    · rintro ⟨⟩
      exact ⟨hseen, rfl⟩
    · rintro ⟨-, rfl⟩
      rfl
  | cons entry rest ih =>
    have happend : seen ++ entry :: rest = (seen ++ [entry]) ++ rest := by
      rw [List.append_assoc, List.singleton_append]
    have hdepth : entry.depth frame (unit frame (seen ++ entry :: rest)) =
        entry.depth frame (unit frame (seen ++ [entry])) := by
      rw [happend, depth_unit_append (List.mem_append_right _ (List.mem_singleton_self entry))]
    rw [outlineBelow_cons_eq_ok_iff, levelsBelow, List.map_cons, hdepth, happend]
    have hconcat := depths_concat frame seen entry
    -- The first entry stays the same, and the last one is the new one.
    have hhead : (depths frame (seen ++ [entry])).head? = some root := by
      rw [hconcat, List.head?_append, hfirst, Option.some_or]
    have hend : ∀ depth, depth = entry.depth frame (unit frame (seen ++ [entry])) →
        root ≤ depth →
        (depths frame (seen ++ [entry])).getLast? = some (root + (depth - root)) := by
      rintro _ rfl hroot
      rw [hconcat, List.getLast?_concat, Nat.add_sub_cancel' hroot]
    have hregular : Regular frame (seen ++ [entry]) ↔ _ := regular_concat_iff
    simp only [hfirst, hlast, Option.mem_some, forall_eq'] at hregular
    constructor
    · rintro ⟨depth, next, more, hdepth, hroot, hjump, hmore, rfl⟩
      obtain ⟨hjoins, rfl, rfl⟩ := Gauge.depth_eq_ok_iff.mp hdepth
      have hstart := hregular.mpr ⟨hseen, hjoins, hroot, hjump⟩
      obtain ⟨hwhole, rfl⟩ := (ih hstart hhead (hend _ rfl hroot)).mp hmore
      exact ⟨hwhole, rfl⟩
    · rintro ⟨hwhole, rfl⟩
      have hstart := hwhole.of_append
      obtain ⟨-, hjoins, hroot, hjump⟩ := hregular.mp hstart
      exact ⟨_, _, _, Gauge.depth_eq_ok_iff.mpr ⟨hjoins, rfl, rfl⟩, hroot, hjump,
        (ih hstart hhead (hend _ rfl hroot)).mpr ⟨hwhole, rfl⟩, rfl⟩

/-- What the first entry of a block settles. -/
def frameOf : List Entry → Frame
  | [] => ⟨0, false⟩
  | first :: _ => Frame.ofShape first.shape

/-- The depth of an entry of the block. -/
def depthOf (block : List Entry) (entry : Entry) : Nat :=
  entry.depth (frameOf block) (unit (frameOf block) block)

/-- The depth of the first entry of a block. -/
def rootDepth (block : List Entry) : Nat :=
  (block.head?.map (depthOf block)).getD 0

/-- A block is measured exactly when it is regular, and then every entry has the depth that the block as a
whole gives it. -/
theorem outline_eq_ok_iff {block : List Entry} {listed : Outline} :
    outline block = .ok listed ↔
      Regular (frameOf block) block ∧
      listed = block.map fun entry => (depthOf block entry - rootDepth block, entry.label) := by
  cases block with
  | nil =>
    constructor
    · rintro ⟨⟩
      exact ⟨regular_nil _, rfl⟩
    · rintro ⟨-, rfl⟩
      rfl
  | cons first rest =>
    set frame := frameOf (first :: rest)
    have hframe : Frame.ofShape (Shape.ofMargin first.margin) = frame := rfl
    have hunset : Gauge.unset = Gauge.after frame [] := rfl
    have hown : first.depth frame (unit frame ([first] ++ rest)) =
        first.depth frame (unit frame [first]) :=
      depth_unit_append (List.mem_singleton_self first)
    have hroot : rootDepth (first :: rest) = first.depth frame (unit frame [first]) := hown
    have hfirst : depthOf (first :: rest) first - rootDepth (first :: rest) = 0 := Nat.sub_self _
    have hbelow : (rest.map fun entry =>
        (depthOf (first :: rest) entry - rootDepth (first :: rest), entry.label)) =
        levelsBelow frame (unit frame ([first] ++ rest)) (rootDepth (first :: rest)) rest := rfl
    rw [outline, hframe, hunset, bind_eq_ok_iff, List.map_cons, hfirst, hbelow, hroot]
    constructor
    · rintro ⟨⟨depth, gauge⟩, hdepth, h⟩
      obtain ⟨below, hlisted, ⟨⟩⟩ := bind_eq_ok_iff.mp h
      obtain ⟨hjoins, rfl, rfl⟩ := Gauge.depth_eq_ok_iff.mp hdepth
      have hstart := regular_singleton_iff.mpr hjoins
      obtain ⟨hwhole, rfl⟩ := (outlineBelow_eq_ok_iff hstart rfl rfl).mp hlisted
      exact ⟨hwhole, rfl⟩
    · rintro ⟨hwhole, rfl⟩
      rw [← List.singleton_append] at hwhole
      have hstart := hwhole.of_append
      have hjoins := regular_singleton_iff.mp hstart
      refine ⟨_, Gauge.depth_eq_ok_iff.mpr ⟨hjoins, rfl, rfl⟩, bind_eq_ok_iff.mpr ⟨_, ?_, rfl⟩⟩
      exact (outlineBelow_eq_ok_iff hstart rfl rfl).mpr ⟨hwhole, rfl⟩

/-- The tree entry stands where the margins of its block put it, under the name on its line. -/
structure Places (block : List Entry) (entry : Entry) (shown : Nat × Node) : Prop where
  depth_eq : shown.1 = depthOf block entry - rootDepth block
  name_eq : shown.2.name = entry.name
  /-- A slash makes a directory, and so do entries below. -/
  kind_iff : shown.2.kind = .directory ↔ entry.marked = true ∨ shown.2.children ≠ []

end Block

theorem Entry.kind_iff_of_close {entry : Entry} {node : Node}
    (h : entry.label.close node.children = node) :
    node.kind = .directory ↔ entry.marked = true ∨ node.children ≠ [] := by
  have hkind : node.kind = (entry.label.verdict node.children).kind := by
    rw [← Label.kind_close, h]
  rw [hkind, Label.verdict, Entry.label]
  cases entry.marked with
  | true => simp
  | false =>
    rw [if_neg Bool.false_ne_true, Option.getD_none, Verdict.infer_kind]
    cases node.children <;> simp

/-- A block is read exactly when its margins add up, and then the trees list its entries in order, each once
and at the depth that the margins give it. -/
theorem Block.exists_trees_iff_regular (block : List Entry) :
    ((∃ trees, Block.trees block = .ok trees) ↔ Block.Regular (Block.frameOf block) block) ∧
      ∀ trees, Block.trees block = .ok trees →
        List.Forall₂ (Block.Places block) block (trees.flatMap Node.walk) := by
  constructor
  · constructor
    · rintro ⟨trees, htrees⟩
      obtain ⟨listed, hlisted, -⟩ := map_eq_ok_iff.mp htrees
      exact (Block.outline_eq_ok_iff.mp hlisted).1
    · intro hregular
      exact ⟨_, map_eq_ok_iff.mpr ⟨_, Block.outline_eq_ok_iff.mpr ⟨hregular, rfl⟩, rfl⟩⟩
  · intro trees htrees
    obtain ⟨listed, hlisted, rfl⟩ := map_eq_ok_iff.mp htrees
    have hshown := Block.forall₂_shows_outline hlisted
    obtain ⟨-, rfl⟩ := Block.outline_eq_ok_iff.mp hlisted
    rw [Node.preorderAll_zero] at hshown
    refine (List.forall₂_map_left_iff.mp hshown).imp fun entry shown hshows => ?_
    exact ⟨hshows.1.symm, by rw [← hshows.2, Label.name_close]; rfl,
      Entry.kind_iff_of_close hshows.2⟩

/-- Bullets below an indented root: the first one stands one level down, and the next one shows how wide a level
is. -/
theorem Block.exists_trees_iff_regular_bullets :
    let block : List Entry :=
      [⟨1, [' '], "a", false⟩, ⟨2, " - ".toList, "b", false⟩, ⟨3, "   * ".toList, "c", true⟩]
    let tree : Node := .directory "a" [.directory "b" [.directory "c" []]]
    Block.Regular (Block.frameOf block) block ∧
      List.Forall₂ (Block.Places block) block ([tree].flatMap Node.walk) :=
  ⟨(Block.exists_trees_iff_regular _).1.mp ⟨_, rfl⟩, (Block.exists_trees_iff_regular _).2 _ rfl⟩

end TreeSketch.Diagram
