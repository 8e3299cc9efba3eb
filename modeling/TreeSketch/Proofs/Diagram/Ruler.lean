import TreeSketch.Proofs.Diagram.Regular

/-!
# Blocks that show trees

A `Ruler` says how deep the entries of a block are meant to be: which lead they share, which style and which
blank characters they have, and how wide a level is. When every entry reads off the ruler as deep as an entry of
some trees, the block is read as these trees (`Block.trees_of_reads`), whatever stands in its margins otherwise.

A ruler knows the width of a level, and the block has to find it. The entries down to the depth `edge` stand at the
common lead, so they show no unit. Since no entry is more than one level below the entry before it, the first one
that is deeper stands one level below the edge, and its lead is the unit (`Ruler.unit_cases`).
-/

namespace TreeSketch.Diagram

/-- How the depths of a block are meant. -/
structure Ruler where
  /-- What the first entry settles. -/
  frame : Frame
  /-- The style of the entries that are not bare. -/
  style : Style
  /-- The width of a level. -/
  unit : Nat
  /-- The greatest depth at the common lead. -/
  edge : Nat
  blank : Whitespace

namespace Ruler

/-- The entry reads off the ruler as an entry of the given depth. -/
structure Reads (ruler : Ruler) (entry : Entry) (depth : Nat) : Prop where
  base_le : ruler.frame.base ≤ entry.shape.leadWidth
  tabs : entry.shape.leadHasTabs = true → ruler.blank = .tabs
  spaces : entry.shape.leadHasSpaces = true → ruler.blank = .spaces
  style_eq : entry.style ruler.frame = .bare ∨ entry.style ruler.frame = ruler.style
  unit_dvd : entry.style ruler.frame ≠ .bare → ruler.unit ∣ entry.lead ruler.frame
  unit_eq_none : depth ≤ ruler.edge → entry.unit? ruler.frame = none
  unit_eq : depth = ruler.edge + 1 → entry.unit? ruler.frame = some ruler.unit
  depth_eq : entry.depth ruler.frame ruler.unit = depth

variable {ruler : Ruler} {block : List Entry} {depths : List Nat}

/-- The block finds the unit of the ruler, unless it stands at the common lead as a whole. -/
theorem unit_cases (h : List.Forall₂ ruler.Reads block depths) {last : Nat}
    (hlast : last ≤ ruler.edge)
    (hsteps : (last :: depths).IsChain fun depth next => next ≤ depth + 1) :
    (∀ entry ∈ block, entry.unit? ruler.frame = none) ∨
      block.findSome? (Entry.unit? ruler.frame) = some ruler.unit := by
  induction h generalizing last with
  | nil => exact Or.inl nofun
  | @cons entry depth block depths hreads _ ih =>
    rw [List.isChain_cons_cons] at hsteps
    by_cases hedge : depth ≤ ruler.edge
    · have hnone := hreads.unit_eq_none hedge
      rw [List.findSome?_cons_of_isNone (by rw [hnone]; rfl), List.forall_mem_cons]
      exact (ih hedge hsteps.2).imp_left fun hall => ⟨hnone, hall⟩
    · have hdepth : depth = ruler.edge + 1 := by omega
      rw [List.findSome?_cons_of_isSome (by rw [hreads.unit_eq hdepth]; rfl)]
      exact Or.inr (hreads.unit_eq hdepth)

namespace Reads

variable {entry : Entry} {depth : Nat}

theorem whitespace?_eq (h : ruler.Reads entry depth) (used : Whitespace)
    (hused : entry.whitespace? = some used) : used = ruler.blank := by
  rw [Entry.whitespace?] at hused
  split at hused
  · rename_i htabs
    rw [h.tabs htabs, Option.some.inj hused]
  · split at hused
    · rename_i hspaces
      rw [h.spaces hspaces, Option.some.inj hused]
    · cases hused

theorem style?_eq (h : ruler.Reads entry depth) (style : Style)
    (hstyle : entry.style? ruler.frame = some style) : style = ruler.style := by
  rw [Entry.style?] at hstyle
  split at hstyle
  · cases hstyle
  · rename_i hne
    rw [← Option.some.inj hstyle]
    exact h.style_eq.resolve_left hne

/-- The depth is the one on the ruler, when the unit is, or when it does not matter. -/
theorem depth_eq_of_unit (h : ruler.Reads entry depth) {unit : Nat}
    (hunit : entry.unit? ruler.frame = none ∨ unit = ruler.unit) :
    entry.depth ruler.frame unit = depth := by
  rcases hunit with hnone | rfl
  · rw [Entry.depth_eq_of_unit? hnone unit ruler.unit, h.depth_eq]
  · exact h.depth_eq

theorem dvd_of_unit (h : ruler.Reads entry depth) {unit : Nat}
    (hunit : entry.unit? ruler.frame = none ∨ unit = ruler.unit)
    (hstyle : entry.style ruler.frame ≠ .bare) : unit ∣ entry.lead ruler.frame := by
  rcases hunit with hnone | rfl
  · rw [Entry.lead_eq_zero_of_unit? hnone hstyle]
    exact Nat.dvd_zero unit
  · exact h.unit_dvd hstyle

/-- A bare entry is a root. -/
theorem of_bare (hstyle : entry.style ruler.frame = .bare)
    (hbase : ruler.frame.base ≤ entry.shape.leadWidth)
    (htabs : entry.shape.leadHasTabs = true → ruler.blank = .tabs)
    (hspaces : entry.shape.leadHasSpaces = true → ruler.blank = .spaces) :
    ruler.Reads entry 0 where
  base_le := hbase
  tabs := htabs
  spaces := hspaces
  style_eq := Or.inl hstyle
  unit_dvd := fun hne => absurd hstyle hne
  unit_eq_none := fun _ => by rw [Entry.unit?, hstyle]
  unit_eq := fun hdepth => absurd hdepth (Nat.succ_ne_zero _).symm
  depth_eq := by rw [Entry.depth, hstyle]

/-- A connector stands one level below the levels in its lead. -/
theorem of_connector (hruler : ruler.style = .connector) (hedge : ruler.edge = 0)
    (hstyle : entry.shape.style = .connector) (hwidth : entry.shape.markerWidth = ruler.unit)
    (hlead : entry.shape.leadWidth = ruler.frame.base + depth * ruler.unit)
    (htabs : entry.shape.leadHasTabs = true → ruler.blank = .tabs)
    (hspaces : entry.shape.leadHasSpaces = true → ruler.blank = .spaces) :
    ruler.Reads entry (depth + 1) := by
  have hown : entry.style ruler.frame = .connector := by
    simp [Entry.style, hstyle]
  have hlevels : entry.lead ruler.frame = depth * ruler.unit := by
    rw [Entry.lead, hlead, Nat.add_sub_cancel_left]
  have hpos : 0 < ruler.unit := by
    rw [← hwidth]
    exact Shape.markerWidth_pos hstyle
  have hunit : entry.unit? ruler.frame = some ruler.unit := by
    rw [Entry.unit?, hown, ← hwidth]
  refine ⟨by omega, htabs, hspaces, Or.inr (hown.trans hruler.symm), ?_, ?_, fun _ => hunit, ?_⟩
  · rw [hlevels]
    exact fun _ => Nat.dvd_mul_left _ _
  · omega
  · rw [Entry.depth, hown, hlevels, Nat.mul_div_cancel _ hpos]

/-- A bullet or an indentation stands as many levels below the edge as its lead holds. -/
theorem of_levels {own : Style} (hown : own = .bullet ∨ own = .indent) (hruler : ruler.style = own)
    (hstyle : entry.style ruler.frame = own) (hpos : 0 < ruler.unit) {count : Nat}
    (hlead : entry.shape.leadWidth = ruler.frame.base + count * ruler.unit)
    (hdepth : entry.depth ruler.frame ruler.unit = entry.lead ruler.frame / ruler.unit + ruler.edge)
    (htabs : entry.shape.leadHasTabs = true → ruler.blank = .tabs)
    (hspaces : entry.shape.leadHasSpaces = true → ruler.blank = .spaces) :
    ruler.Reads entry (count + ruler.edge) := by
  have hlevels : entry.lead ruler.frame = count * ruler.unit := by
    rw [Entry.lead, hlead, Nat.add_sub_cancel_left]
  have hunit : entry.unit? ruler.frame =
      if entry.lead ruler.frame = 0 then none else some (entry.lead ruler.frame) := by
    rw [Entry.unit?]
    rcases hown with rfl | rfl <;> rw [hstyle]
  refine ⟨by omega, htabs, hspaces, Or.inr (hstyle.trans hruler.symm), ?_, ?_, ?_, ?_⟩
  · rw [hlevels]
    exact fun _ => Nat.dvd_mul_left _ _
  · intro hle
    obtain rfl : count = 0 := by omega
    rw [hunit, hlevels, Nat.zero_mul, if_pos rfl]
  · intro hbelow
    obtain rfl : count = 1 := by omega
    rw [hunit, hlevels, Nat.one_mul, if_neg (Nat.pos_iff_ne_zero.mp hpos)]
  · rw [hdepth, hlevels, Nat.mul_div_cancel _ hpos]

/-- Below a bare root, bullets start one level down. -/
theorem of_bullet (hruler : ruler.style = .bullet)
    (hedge : ruler.edge = if ruler.frame.startsBare then 1 else 0) (hpos : 0 < ruler.unit)
    (hstyle : entry.shape.style = .bullet) {count : Nat}
    (hlead : entry.shape.leadWidth = ruler.frame.base + count * ruler.unit)
    (htabs : entry.shape.leadHasTabs = true → ruler.blank = .tabs)
    (hspaces : entry.shape.leadHasSpaces = true → ruler.blank = .spaces) :
    ruler.Reads entry (count + ruler.edge) := by
  have hown : entry.style ruler.frame = .bullet := by
    simp [Entry.style, hstyle]
  refine of_levels (Or.inl rfl) hruler hown hpos hlead ?_ htabs hspaces
  rw [Entry.depth, hown, hedge]

theorem of_indent (hruler : ruler.style = .indent) (hedge : ruler.edge = 0) (hpos : 0 < ruler.unit)
    (hstyle : entry.shape.style = .indent) {count : Nat} (hcount : count ≠ 0)
    (hlead : entry.shape.leadWidth = ruler.frame.base + count * ruler.unit)
    (htabs : entry.shape.leadHasTabs = true → ruler.blank = .tabs)
    (hspaces : entry.shape.leadHasSpaces = true → ruler.blank = .spaces) :
    ruler.Reads entry count := by
  have hne : entry.lead ruler.frame ≠ 0 := by
    rw [Entry.lead, hlead, Nat.add_sub_cancel_left]
    exact Nat.mul_ne_zero hcount (Nat.pos_iff_ne_zero.mp hpos)
  have hown : entry.style ruler.frame = .indent := by
    simp [Entry.style, hstyle, hne]
  have hreads := of_levels (Or.inr rfl) hruler hown hpos hlead
    (by rw [Entry.depth, hown, hedge]; rfl) htabs hspaces
  rwa [hedge] at hreads

end Reads

/-- Values agree when they are one and the same. -/
theorem agree_of_forall {α : Type} {f : Entry → Option α} (value : α)
    (h : ∀ entry ∈ block, ∀ a, f entry = some a → a = value) : Agree f block := by
  intro x hx y hy a b ha hb
  rw [h x hx a ha, h y hy b hb]

/-- The unit of the block is that of the ruler, as far as it matters. -/
theorem unit_of_reads (h : List.Forall₂ ruler.Reads block depths)
    (hfirst : ∀ depth ∈ depths.head?, depth = 0)
    (hsteps : depths.IsChain fun depth next => next ≤ depth + 1) :
    ∀ entry ∈ block, entry.unit? ruler.frame = none ∨
      Block.unit ruler.frame block = ruler.unit := by
  have hchain : (0 :: depths).IsChain fun depth next => next ≤ depth + 1 :=
    hsteps.cons fun depth hdepth => by rw [hfirst depth hdepth]; exact Nat.zero_le _
  rcases unit_cases h (Nat.zero_le _) hchain with hnone | hsome
  · exact fun entry hentry => Or.inl (hnone entry hentry)
  · exact fun _ _ => Or.inr (by rw [Block.unit, hsome, Option.getD_some])

theorem depths_of_reads (h : List.Forall₂ ruler.Reads block depths)
    (hunit : ∀ entry ∈ block, entry.unit? ruler.frame = none ∨
      Block.unit ruler.frame block = ruler.unit) :
    Block.depths ruler.frame block = depths := by
  have hsame : List.Forall₂
      (fun entry depth => entry.depth ruler.frame (Block.unit ruler.frame block) = depth)
      block depths :=
    ((List.forall₂_and_left block depths).mpr ⟨hunit, h⟩).imp
      fun _ _ hboth => hboth.2.depth_eq_of_unit hboth.1
  have hmap := List.forall₂_map_left_iff.mpr hsame
  rwa [List.forall₂_eq_eq_eq] at hmap

/-- A block that reads off a ruler is regular. -/
theorem regular_of_reads (h : List.Forall₂ ruler.Reads block depths)
    (hfirst : ∀ depth ∈ depths.head?, depth = 0)
    (hsteps : depths.IsChain fun depth next => next ≤ depth + 1) :
    Block.Regular ruler.frame block := by
  have hunit := unit_of_reads h hfirst hsteps
  have hdepths := depths_of_reads h hunit
  have hreads : ∀ entry ∈ block, ∃ depth, ruler.Reads entry depth := by
    intro entry hentry
    obtain ⟨depth, -, hreads⟩ := exists_mem_of_forall₂ h.flip hentry
    exact ⟨depth, hreads⟩
  refine ⟨?_, ?_, ?_, ?_, ?_, ?_, ?_⟩
  · rintro entry hentry ⟨htabs, hspaces⟩
    obtain ⟨depth, hentry⟩ := hreads entry hentry
    have hblank := hentry.tabs htabs
    rw [hentry.spaces hspaces] at hblank
    cases hblank
  · refine agree_of_forall ruler.blank fun entry hentry => ?_
    obtain ⟨depth, hentry⟩ := hreads entry hentry
    exact hentry.whitespace?_eq
  · intro entry hentry
    obtain ⟨depth, hentry⟩ := hreads entry hentry
    exact hentry.base_le
  · refine agree_of_forall ruler.style fun entry hentry => ?_
    obtain ⟨depth, hentry⟩ := hreads entry hentry
    exact hentry.style?_eq
  · intro entry hentry hstyle
    obtain ⟨depth, hread⟩ := hreads entry hentry
    exact hread.dvd_of_unit (hunit entry hentry) hstyle
  · intro first hhead depth _
    rw [hdepths] at hhead
    rw [hfirst first hhead]
    exact Nat.zero_le depth
  · rw [hdepths]
    exact hsteps

end Ruler

/-- A block is read as the trees whose entries its own entries read off a ruler, one by one. -/
theorem Block.trees_of_reads {ruler : Ruler} {block : List Entry} {trees : List Node}
    (hframe : ∀ first ∈ block.head?, Frame.ofShape first.shape = ruler.frame)
    (h : List.Forall₂ (fun entry shown => ruler.Reads entry shown.1 ∧
      entry.label.close shown.2.children = shown.2) block (Node.preorderAll 0 trees)) :
    Block.trees block = .ok trees := by
  have hreads : List.Forall₂ ruler.Reads block ((Node.preorderAll 0 trees).map (·.1)) :=
    List.forall₂_map_right_iff.mpr (h.imp fun _ _ hboth => hboth.1)
  have hfirst := Node.head?_depth_preorderAll 0 trees
  have hsteps := Node.isChain_depth_preorderAll 0 trees
  have hregular := Ruler.regular_of_reads hreads hfirst hsteps
  have hunit := Ruler.unit_of_reads hreads hfirst hsteps
  rw [Block.trees, map_eq_ok_iff]
  cases block with
  | nil =>
    have hnil := List.forall₂_nil_left_iff.mp h
    exact ⟨[], rfl, Outline.trees_of_shows (by rw [hnil]; exact List.Forall₂.nil)⟩
  | cons first rest =>
    have hown : frameOf (first :: rest) = ruler.frame := hframe first rfl
    have hdepths := Ruler.depths_of_reads hreads hunit
    have hroot : rootDepth (first :: rest) = 0 := by
      rw [rootDepth, List.head?_cons, Option.map_some, Option.getD_some, depthOf, hown]
      refine hfirst _ ?_
      rw [← hdepths]
      rfl
    refine ⟨_, outline_eq_ok_iff.mpr ⟨hown ▸ hregular, rfl⟩, Outline.trees_of_shows ?_⟩
    refine List.forall₂_map_left_iff.mpr ?_
    refine ((List.forall₂_and_left _ _).mpr ⟨hunit, h⟩).imp ?_
    rintro entry shown ⟨hentry, hread, hclose⟩
    refine ⟨?_, hclose⟩
    rw [hroot, Nat.sub_zero, depthOf, hown]
    exact hread.depth_eq_of_unit hentry

end TreeSketch.Diagram
