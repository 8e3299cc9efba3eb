import TreeSketch.Proofs.Diagram.Ruler

/-!
# Layouts

The ways to show how deep an entry is: connectors behind columns, bullets, or indentation alone. A `Layout` fixes one
of them with its width of a level, and `Layout.IsMargin` says which margins it allows for an entry of a depth, all of
them behind a common indentation. Which corner, stroke, bar or bullet a line takes is left to the line.

Of every layout two things are shown, and both come down to three kinds of margin, blanks, bullets and connectors:

* the margin ends where the label begins, so the line is read as the entry (`Layout.ofLine_append`);
* the margin reads off the depth on one ruler, whatever it is made of (`Layout.reads`).
-/

namespace TreeSketch

namespace Diagram

/-- The character that a block is indented with. -/
def Whitespace.char : Whitespace → Char
  | tabs => '\t'
  | spaces => ' '

/-! ## Parts of a margin -/

/-- A column of the given width: a bar or a space, and spaces. -/
def IsColumn (width : Nat) (column : List Char) : Prop :=
  ∃ bar, (bar = '│' ∨ bar = '|' ∨ bar = ' ') ∧ column = bar :: List.replicate (width - 1) ' '

/-- A connector of the given width: a corner, strokes of one kind, and spaces. -/
def IsConnector (width : Nat) (connector : List Char) : Prop :=
  ∃ corner stroke strokes padding, isCorner corner = true ∧ isStroke stroke = true ∧
    connector = corner :: stroke :: (List.replicate strokes stroke ++ ' ' :: List.replicate padding ' ') ∧
    connector.length = width

namespace Margin

theorem isBlank_char (blank : Whitespace) : Text.isBlank blank.char = true := by
  cases blank <;> rfl

theorem isBlank_of_mem_blanks (count : Nat) (blank : Whitespace) :
    ∀ c ∈ List.replicate count blank.char, Text.isBlank c = true := by
  intro c hc
  rw [List.eq_of_mem_replicate hc, isBlank_char]

/-- The blanks in front of a margin. -/
theorem passed_blanks (count : Nat) (blank : Whitespace) :
    Passed (List.replicate count blank.char) :=
  passed_of_isBlank (isBlank_of_mem_blanks count blank)

theorem passed_column {width : Nat} (hwidth : 1 < width) {column : List Char}
    (h : IsColumn width column) : Passed column := by
  obtain ⟨bar, hbar, rfl⟩ := h
  obtain ⟨count, hcount⟩ : ∃ count, width - 1 = count + 1 := ⟨width - 2, by omega⟩
  have hspaces : Passed (List.replicate (width - 1) ' ') := passed_blanks _ .spaces
  intro cs
  -- No stroke follows the bar, so it is no corner.
  have hnone : afterConnector? (bar :: (List.replicate (width - 1) ' ' ++ cs)) = none := by
    refine afterConnector?_of_not_isStroke fun c hc => ?_
    rw [hcount, List.replicate_succ, List.cons_append] at hc
    obtain rfl : ' ' = c := by simpa using hc
    rfl
  have hcolumn : isColumn bar = true := by
    rcases hbar with rfl | rfl | rfl <;> decide
  rw [List.cons_append, splitConnector?_cons_of_none hnone hcolumn, hspaces, Option.map_map]
  rfl

theorem afterConnector?_append {width : Nat} {connector rest : List Char}
    (h : IsConnector width connector) (hrest : Flush rest) :
    afterConnector? (connector ++ rest) = some rest := by
  obtain ⟨corner, stroke, strokes, padding, hcorner, hstroke, rfl, -⟩ := h
  have hpadding : ∀ c ∈ ' ' :: List.replicate padding ' ', isPadding c = true := by
    intro c hc
    rw [← List.replicate_succ] at hc
    rw [List.eq_of_mem_replicate hc]
    rfl
  rw [List.cons_append, List.cons_append, List.append_assoc]
  exact afterConnector?_of_padding hcorner hstroke strokes hpadding (Or.inl (List.cons_ne_nil _ _))
    hrest

theorem one_lt_of_isConnector {width : Nat} {connector : List Char}
    (h : IsConnector width connector) : 1 < width := by
  obtain ⟨_, _, _, _, -, -, rfl, rfl⟩ := h
  simp

/-- Columns are spaces, but for the bars. -/
theorem mem_flatten_columns {width : Nat} {columns : List (List Char)}
    (h : ∀ column ∈ columns, IsColumn width column) {c : Char} (hc : c ∈ columns.flatten) :
    c = '│' ∨ c = '|' ∨ c = ' ' := by
  obtain ⟨column, hcolumn, hc⟩ := List.mem_flatten.mp hc
  obtain ⟨bar, hbar, rfl⟩ := h column hcolumn
  rcases List.mem_cons.mp hc with rfl | hspace
  · exact hbar
  · exact Or.inr (Or.inr (List.eq_of_mem_replicate hspace))

theorem length_flatten_columns {width : Nat} (hwidth : 1 < width) {columns : List (List Char)}
    (h : ∀ column ∈ columns, IsColumn width column) :
    columns.flatten.length = columns.length * width := by
  induction columns with
  | nil => simp
  | cons column columns ih =>
    rw [List.forall_mem_cons] at h
    obtain ⟨⟨bar, -, rfl⟩, hcolumns⟩ := h
    rw [List.flatten_cons, List.length_append, ih hcolumns, List.length_cons, List.length_cons,
      List.length_replicate, Nat.succ_mul]
    omega

/-- Blanks and columns stand before the connector, and the label behind it. -/
theorem splitConnector?_connector {width indent : Nat} {columns : List (List Char)}
    {connector rest : List Char} (hcolumns : ∀ column ∈ columns, IsColumn width column)
    (hconnector : IsConnector width connector) (hrest : Flush rest) :
    splitConnector? (List.replicate indent ' ' ++ columns.flatten ++ (connector ++ rest)) =
      some (List.replicate indent ' ' ++ columns.flatten, rest) := by
  have hwidth := one_lt_of_isConnector hconnector
  have hpassed : Passed (List.replicate indent ' ' ++ columns.flatten) :=
    (passed_blanks indent .spaces).append
      (passed_flatten fun column hcolumn => passed_column hwidth (hcolumns column hcolumn))
  rw [hpassed, splitConnector?_of_afterConnector? (afterConnector?_append hconnector hrest),
    Option.map_some, List.append_nil]

/-- No connector starts at a bullet. -/
theorem splitConnector?_bullet {bullet : Char} (hbullet : isBullet bullet = true) (count : Nat)
    (blank : Whitespace) (rest : List Char) :
    splitConnector? (List.replicate count blank.char ++ bullet :: ' ' :: rest) = none := by
  refine splitConnector?_of_bullet (isBlank_of_mem_blanks count blank) hbullet ?_
  rintro _ ⟨⟩
  rfl

theorem dropWhile_blanks (count : Nat) (blank : Whitespace) (cs : List Char) :
    (List.replicate count blank.char ++ cs).dropWhile Text.isBlank = cs.dropWhile Text.isBlank :=
  List.dropWhile_append_of_pos (isBlank_of_mem_blanks count blank)

/-- Blanks stand before the bullet, and the label behind it. -/
theorem splitBullet?_bullet {bullet : Char} (hbullet : isBullet bullet = true) (count : Nat)
    (blank : Whitespace) {rest : List Char} (hrest : Text.trimStart rest = rest) :
    splitBullet? (List.replicate count blank.char ++ bullet :: ' ' :: rest) =
      some (List.replicate count blank.char, rest) :=
  splitBullet?_of_blanks (isBlank_of_mem_blanks count blank) hbullet
    (List.forall_mem_singleton.mpr rfl) (List.cons_ne_nil ' ' []) hrest

/-- Blanks alone hold no bullet that does not stand behind them. -/
theorem splitBullet?_blanks {rest : List Char} (h : splitBullet? rest = none) (count : Nat)
    (blank : Whitespace) : splitBullet? (List.replicate count blank.char ++ rest) = none := by
  rw [splitBullet?_eq_none_iff, dropWhile_blanks]
  exact splitBullet?_eq_none_iff.mp h

end Margin

/-! ## Measures -/

namespace Shape

/-- Blanks are measured as indentation, if there are any. -/
theorem ofMargin_blanks (count : Nat) (blank : Whitespace) :
    ofMargin (List.replicate count blank.char) =
      measure (if count = 0 then .bare else .indent) (List.replicate count blank.char) 0 := by
  have hconnector := Margin.passed_blanks count blank []
  have hbullet := Margin.splitBullet?_blanks (show Margin.splitBullet? [] = none from rfl) count blank
  rw [List.append_nil] at hconnector hbullet
  rw [ofMargin, hconnector]
  simp only [Margin.splitConnector?, Option.map_none, hbullet, List.replicate_eq_nil_iff]
  by_cases hcount : count = 0
  · simp [hcount]
  · simp [hcount]

theorem ofMargin_bullet {bullet : Char} (hbullet : isBullet bullet = true) (count : Nat)
    (blank : Whitespace) :
    ofMargin (List.replicate count blank.char ++ [bullet, ' ']) =
      measure .bullet (List.replicate count blank.char) 2 := by
  rw [ofMargin, Margin.splitConnector?_bullet hbullet, Margin.splitBullet?_bullet hbullet count blank rfl]
  simp

theorem ofMargin_connector {width indent : Nat} {columns : List (List Char)}
    {connector : List Char} (hcolumns : ∀ column ∈ columns, IsColumn width column)
    (hconnector : IsConnector width connector) :
    ofMargin (List.replicate indent ' ' ++ columns.flatten ++ connector) =
      measure .connector (List.replicate indent ' ' ++ columns.flatten) width := by
  have hsplit : Margin.splitConnector? (List.replicate indent ' ' ++ columns.flatten ++ (connector ++ [])) =
      some (List.replicate indent ' ' ++ columns.flatten, []) :=
    Margin.splitConnector?_connector hcolumns hconnector Margin.flush_nil
  have hlength : connector.length = width := by
    obtain ⟨_, _, _, _, -, -, -, hlength⟩ := hconnector
    exact hlength
  rw [List.append_nil] at hsplit
  rw [ofMargin, hsplit]
  simp only [List.length_append, hlength, Nat.add_sub_cancel_left]

/-- Blanks are tabs or spaces, and never both. -/
theorem tabs_of_blanks {style : Style} {count markerWidth : Nat} {blank : Whitespace}
    (h : (measure style (List.replicate count blank.char) markerWidth).leadHasTabs = true) :
    blank = .tabs := by
  cases blank with
  | tabs => rfl
  | spaces => simp [measure, Whitespace.char] at h

theorem spaces_of_blanks {style : Style} {count markerWidth : Nat} {blank : Whitespace}
    (h : (measure style (List.replicate count blank.char) markerWidth).leadHasSpaces = true) :
    blank = .spaces := by
  cases blank with
  | tabs => simp [measure, Whitespace.char] at h
  | spaces => rfl

end Shape

end Diagram

/-! ## Lines -/

namespace Node.Legible

open Diagram

variable {node : Node}

/-- Behind a margin with a character of its own, a line is neither a report nor a decoration. -/
theorem ofLine_of_mem_margin (h : node.Legible) {margin : List Char} {c : Char} (hmem : c ∈ margin)
    (hreport : Row.isReportChar c = false) (hcolumn : isColumn c = false)
    (hrest : Margin.restOf (margin ++ node.diagramLabel.toList) = node.diagramLabel.toList) :
    Row.ofLine (margin ++ node.diagramLabel.toList) =
      .entry margin node.name.toList node.slashes := by
  have hline := List.mem_append_left node.diagramLabel.toList hmem
  refine h.ofLine_append margin hrest (Row.isReport_eq_false hline hreport) ?_
  rw [Row.isDecoration, Bool.and_eq_false_iff]
  exact Or.inr (List.all_eq_false.mpr ⟨c, hline, by simp [hcolumn]⟩)

/-- Behind a connector, a legible label is read back. -/
theorem ofLine_connector (h : node.Legible) {width indent : Nat} {columns : List (List Char)}
    {connector : List Char} (hcolumns : ∀ column ∈ columns, IsColumn width column)
    (hconnector : IsConnector width connector) :
    Row.ofLine (List.replicate indent ' ' ++ columns.flatten ++ connector ++
        node.diagramLabel.toList) =
      .entry (List.replicate indent ' ' ++ columns.flatten ++ connector) node.name.toList
        node.slashes := by
  have hsplit : Margin.splitConnector? (List.replicate indent ' ' ++ columns.flatten ++
      (connector ++ node.diagramLabel.toList)) = some (_, node.diagramLabel.toList) :=
    Margin.splitConnector?_connector hcolumns hconnector h.flush
  obtain ⟨corner, stroke, strokes, padding, -, hstroke, rfl, -⟩ := hconnector
  have hmem : stroke ∈ List.replicate indent ' ' ++ columns.flatten ++
      corner :: stroke :: (List.replicate strokes stroke ++ ' ' :: List.replicate padding ' ') := by
    simp
  simp only [isStroke, Bool.or_eq_true, decide_eq_true_eq] at hstroke
  refine h.ofLine_of_mem_margin hmem ?_ ?_ ?_
  · rcases hstroke with rfl | rfl <;> rfl
  · rcases hstroke with rfl | rfl <;> rfl
  · rw [List.append_assoc, Margin.restOf, hsplit]

/-- Behind a bullet, a legible label is read back that does not start with a blank. -/
theorem ofLine_bullet (h : node.Legible) (hbare : node.StandsBare) {bullet : Char}
    (hbullet : isBullet bullet = true) (count : Nat) (blank : Whitespace) :
    Row.ofLine (List.replicate count blank.char ++ [bullet, ' '] ++ node.diagramLabel.toList) =
      .entry (List.replicate count blank.char ++ [bullet, ' ']) node.name.toList node.slashes := by
  obtain ⟨-, -, htrim⟩ := Margin.restOf_eq_self_iff.mp hbare.restOf_eq
  have hmem : bullet ∈ List.replicate count blank.char ++ [bullet, ' '] := by simp
  have hchar := hbullet
  simp only [isBullet, Bool.or_eq_true, decide_eq_true_eq] at hchar
  refine h.ofLine_of_mem_margin hmem ?_ ?_ ?_
  · rcases hchar with (rfl | rfl) | rfl <;> rfl
  · rcases hchar with (rfl | rfl) | rfl <;> rfl
  · rw [List.append_assoc, List.cons_append, List.singleton_append, Margin.restOf,
      Margin.splitConnector?_bullet hbullet, Margin.splitBullet?_bullet hbullet count blank htrim]

/-- Behind blanks, a label is read back that stands bare. -/
theorem ofLine_blanks (h : node.Legible) (hbare : node.StandsBare) (count : Nat)
    (blank : Whitespace) :
    Row.ofLine (List.replicate count blank.char ++ node.diagramLabel.toList) =
      .entry (List.replicate count blank.char) node.name.toList node.slashes := by
  obtain ⟨hconnector, hbullet, htrim⟩ := Margin.restOf_eq_self_iff.mp hbare.restOf_eq
  have htrimmed (cs : List Char) :
      Text.trimStart (List.replicate count blank.char ++ cs) = Text.trimStart cs :=
    Margin.dropWhile_blanks count blank cs
  refine h.ofLine_append _ ?_ ?_ ?_
  · rw [Margin.restOf, Margin.passed_blanks, hconnector, Option.map_none,
      Margin.splitBullet?_blanks hbullet, htrimmed]
    exact htrim
  · have hreport := hbare.isReport_eq
    rw [Row.isReport] at hreport ⊢
    rwa [htrimmed]
  · have hdecoration := hbare.isDecoration_eq
    -- Blanks are columns without a bar.
    have hbars : (List.replicate count blank.char).any (fun c => c = '│' || c = '|') = false := by
      cases blank <;> simp [Whitespace.char]
    have hcolumns : (List.replicate count blank.char).all isColumn = true := by
      rw [List.all_eq_true]
      intro c hc
      rw [List.eq_of_mem_replicate hc, isColumn, Margin.isBlank_char, Bool.or_true]
    rw [Row.isDecoration] at hdecoration ⊢
    rwa [List.any_append, List.all_append, hbars, hcolumns, Bool.false_or, Bool.true_and]

end Node.Legible

/-! ## Layouts -/

namespace Diagram

/-- How a rendering shows the depths of its entries. -/
inductive Layout where
  /-- Connectors of one width below a bare root, behind columns as wide. -/
  | connectors (width : Nat)
  /-- A bullet before every entry, behind `unit` blanks for each level. -/
  | bullets (blank : Whitespace) (unit : Nat) (pos : 0 < unit)
  /-- Bullets below a bare root, behind `unit` blanks for each level between. -/
  | bulletsBelow (blank : Whitespace) (unit : Nat) (pos : 0 < unit)
  /-- Only `unit` blanks for each level. -/
  | indentation (blank : Whitespace) (unit : Nat) (pos : 0 < unit)

namespace Layout

/-- The margins that may stand before an entry of a depth, in a rendering that is indented by `indent` blanks as a
whole. -/
inductive IsMargin (indent : Nat) : Layout → Nat → List Char → Prop where
  | connectorsRoot {width : Nat} :
    IsMargin indent (.connectors width) 0 (List.replicate indent ' ')
  /-- A column for every entry above but the root. -/
  | connector {width : Nat} {columns : List (List Char)} {connector : List Char}
    (hcolumns : ∀ column ∈ columns, IsColumn width column) (hconnector : IsConnector width connector) :
    IsMargin indent (.connectors width) (columns.length + 1)
      (List.replicate indent ' ' ++ columns.flatten ++ connector)
  | bullet {blank : Whitespace} {unit depth : Nat} {pos : 0 < unit} {bullet : Char}
    (hbullet : isBullet bullet = true) :
    IsMargin indent (.bullets blank unit pos) depth
      (List.replicate (indent + depth * unit) blank.char ++ [bullet, ' '])
  | bulletsRoot {blank : Whitespace} {unit : Nat} {pos : 0 < unit} :
    IsMargin indent (.bulletsBelow blank unit pos) 0 (List.replicate indent blank.char)
  | bulletBelow {blank : Whitespace} {unit depth : Nat} {pos : 0 < unit} {bullet : Char}
    (hbullet : isBullet bullet = true) :
    IsMargin indent (.bulletsBelow blank unit pos) (depth + 1)
      (List.replicate (indent + depth * unit) blank.char ++ [bullet, ' '])
  | indentation {blank : Whitespace} {unit depth : Nat} {pos : 0 < unit} :
    IsMargin indent (.indentation blank unit pos) depth
      (List.replicate (indent + depth * unit) blank.char)

/-- What a block in the layout shows about its levels. -/
def ruler (indent : Nat) : Layout → Ruler
  | connectors width => ⟨⟨indent, true⟩, .connector, width, 0, .spaces⟩
  | bullets blank unit _ => ⟨⟨indent, false⟩, .bullet, unit, 0, blank⟩
  | bulletsBelow blank unit _ => ⟨⟨indent, true⟩, .bullet, unit, 1, blank⟩
  | indentation blank unit _ => ⟨⟨indent, true⟩, .indent, unit, 0, blank⟩

namespace IsMargin

variable {layout : Layout} {indent depth : Nat} {margin : List Char}

/-- Behind a margin of a layout, the label of an entry is read back. -/
theorem ofLine_append (hmargin : layout.IsMargin indent depth margin) {node : Node}
    (hlegible : node.Legible) (hbare : node.StandsBare) :
    Row.ofLine (margin ++ node.diagramLabel.toList) =
      .entry margin node.name.toList node.slashes := by
  cases hmargin with
  | connectorsRoot => exact hlegible.ofLine_blanks hbare indent .spaces
  | connector hcolumns hconnector => exact hlegible.ofLine_connector hcolumns hconnector
  | bullet hbullet => exact hlegible.ofLine_bullet hbare hbullet _ _
  | bulletsRoot => exact hlegible.ofLine_blanks hbare indent _
  | bulletBelow hbullet => exact hlegible.ofLine_bullet hbare hbullet _ _
  | indentation => exact hlegible.ofLine_blanks hbare _ _

theorem lineFeed_not_mem (hmargin : layout.IsMargin indent depth margin) : '\n' ∉ margin := by
  have hblanks (count : Nat) (blank : Whitespace) : '\n' ∉ List.replicate count blank.char := by
    cases blank <;> simp [Whitespace.char]
  have hbullets {bullet : Char} (hbullet : isBullet bullet = true) : '\n' ∉ [bullet, ' '] := by
    intro hmem
    obtain rfl : '\n' = bullet := by simpa using hmem
    cases hbullet
  cases hmargin with
  | connectorsRoot => exact hblanks indent .spaces
  | connector hcolumns hconnector =>
    obtain ⟨corner, stroke, strokes, padding, hcorner, hstroke, rfl, -⟩ := hconnector
    refine List.not_mem_append (List.not_mem_append (hblanks indent .spaces) fun hmem => ?_) ?_
    · rcases Margin.mem_flatten_columns hcolumns hmem with h | h | h <;> cases h
    · have hfirst : '\n' ≠ corner := by
        rintro rfl
        cases hcorner
      have hsecond : '\n' ≠ stroke := by
        rintro rfl
        cases hstroke
      simp [hfirst, hsecond]
  | bullet hbullet => exact List.not_mem_append (hblanks _ _) (hbullets hbullet)
  | bulletsRoot => exact hblanks indent _
  | bulletBelow hbullet => exact List.not_mem_append (hblanks _ _) (hbullets hbullet)
  | indentation => exact hblanks _ _

/-- The margin of the root settles what the ruler says. -/
theorem ofShape_eq (hmargin : layout.IsMargin indent 0 margin) :
    Frame.ofShape (Shape.ofMargin margin) = (layout.ruler indent).frame := by
  have hblanks (blank : Whitespace) :
      Frame.ofShape (Shape.ofMargin (List.replicate indent blank.char)) = ⟨indent, true⟩ := by
    rw [Shape.ofMargin_blanks]
    by_cases hindent : indent = 0 <;> simp [Frame.ofShape, Shape.measure, hindent]
  cases hmargin with
  | connectorsRoot => exact hblanks .spaces
  | bullet hbullet =>
    rw [Shape.ofMargin_bullet hbullet]
    simp [Frame.ofShape, Shape.measure, ruler]
  | bulletsRoot => exact hblanks _
  | indentation =>
    rw [Nat.zero_mul, Nat.add_zero]
    exact hblanks _

/-- A root that is only indented is bare. -/
theorem reads_root {ruler : Ruler} {entry : Entry}
    (hmargin : entry.margin = List.replicate ruler.frame.base ruler.blank.char) :
    ruler.Reads entry 0 := by
  have hshape : entry.shape = Shape.measure (if ruler.frame.base = 0 then .bare else .indent)
      (List.replicate ruler.frame.base ruler.blank.char) 0 := by
    rw [Entry.shape, hmargin, Shape.ofMargin_blanks]
  have hlead : entry.lead ruler.frame = 0 := by
    simp [Entry.lead, hshape, Shape.measure]
  refine Ruler.Reads.of_bare ?_ ?_ ?_ ?_
  · rw [Entry.style, hlead, hshape]
    by_cases hbase : ruler.frame.base = 0 <;> simp [Shape.measure, hbase]
  · simp [hshape, Shape.measure]
  · rw [hshape]
    exact Shape.tabs_of_blanks
  · rw [hshape]
    exact Shape.spaces_of_blanks

/-- A bullet stands as deep as its blanks are wide. -/
theorem reads_bullet {ruler : Ruler} {entry : Entry} {bullet : Char} {count : Nat}
    (hbullet : isBullet bullet = true) (hruler : ruler.style = .bullet)
    (hedge : ruler.edge = if ruler.frame.startsBare then 1 else 0) (hpos : 0 < ruler.unit)
    (hmargin : entry.margin =
      List.replicate (ruler.frame.base + count * ruler.unit) ruler.blank.char ++ [bullet, ' ']) :
    ruler.Reads entry (count + ruler.edge) := by
  have hshape : entry.shape = Shape.measure .bullet
      (List.replicate (ruler.frame.base + count * ruler.unit) ruler.blank.char) 2 := by
    rw [Entry.shape, hmargin, Shape.ofMargin_bullet hbullet]
  refine Ruler.Reads.of_bullet hruler hedge hpos ?_ ?_ ?_ ?_
  · rw [hshape, Shape.measure]
  · rw [hshape, Shape.measure, List.length_replicate]
  · rw [hshape]
    exact Shape.tabs_of_blanks
  · rw [hshape]
    exact Shape.spaces_of_blanks

theorem reads_indentation {ruler : Ruler} {entry : Entry} {count : Nat}
    (hruler : ruler.style = .indent) (hedge : ruler.edge = 0) (hpos : 0 < ruler.unit)
    (hmargin : entry.margin =
      List.replicate (ruler.frame.base + count * ruler.unit) ruler.blank.char) :
    ruler.Reads entry count := by
  by_cases hcount : count = 0
  · subst hcount
    refine reads_root ?_
    rwa [Nat.zero_mul, Nat.add_zero] at hmargin
  · have hwide : ruler.frame.base + count * ruler.unit ≠ 0 := by
      have hlevels := Nat.mul_ne_zero hcount (Nat.pos_iff_ne_zero.mp hpos)
      omega
    have hshape : entry.shape = Shape.measure .indent
        (List.replicate (ruler.frame.base + count * ruler.unit) ruler.blank.char) 0 := by
      rw [Entry.shape, hmargin, Shape.ofMargin_blanks, if_neg hwide]
    refine Ruler.Reads.of_indent hruler hedge hpos ?_ hcount ?_ ?_ ?_
    · rw [hshape, Shape.measure]
    · rw [hshape, Shape.measure, List.length_replicate]
    · rw [hshape]
      exact Shape.tabs_of_blanks
    · rw [hshape]
      exact Shape.spaces_of_blanks

theorem reads_connector {ruler : Ruler} {entry : Entry} {columns : List (List Char)}
    {connector : List Char} (hruler : ruler.style = .connector) (hedge : ruler.edge = 0)
    (hblank : ruler.blank = .spaces) (hcolumns : ∀ column ∈ columns, IsColumn ruler.unit column)
    (hconnector : IsConnector ruler.unit connector)
    (hmargin : entry.margin =
      List.replicate ruler.frame.base ' ' ++ columns.flatten ++ connector) :
    ruler.Reads entry (columns.length + 1) := by
  have hshape : entry.shape = Shape.measure .connector
      (List.replicate ruler.frame.base ' ' ++ columns.flatten) ruler.unit := by
    rw [Entry.shape, hmargin, Shape.ofMargin_connector hcolumns hconnector]
  have hwidth := Margin.length_flatten_columns (Margin.one_lt_of_isConnector hconnector) hcolumns
  refine Ruler.Reads.of_connector hruler hedge ?_ ?_ ?_ ?_ fun _ => hblank
  · rw [hshape, Shape.measure]
  · rw [hshape, Shape.measure]
  · rw [hshape, Shape.measure, List.length_append, List.length_replicate, hwidth]
  · -- There are no tabs between the bars.
    intro htabs
    rw [hshape, Shape.measure, List.contains_eq_mem, decide_eq_true_eq, List.mem_append] at htabs
    rcases htabs with hblanks | hmem
    · cases List.eq_of_mem_replicate hblanks
    · rcases Margin.mem_flatten_columns hcolumns hmem with h | h | h <;> cases h

/-- An entry reads off the ruler of its layout as deep as its margin is meant. -/
theorem reads {entry : Entry} (hmargin : layout.IsMargin indent depth entry.margin) :
    (layout.ruler indent).Reads entry depth := by
  obtain ⟨line, margin, name, marked⟩ := entry
  simp only [] at hmargin
  cases hmargin with
  | connectorsRoot => exact reads_root rfl
  | connector hcolumns hconnector => exact reads_connector rfl rfl rfl hcolumns hconnector rfl
  | @bullet _ _ _ pos _ hbullet => exact reads_bullet hbullet rfl rfl pos rfl
  | bulletsRoot => exact reads_root rfl
  | @bulletBelow _ _ _ pos _ hbullet => exact reads_bullet hbullet rfl rfl pos rfl
  | @indentation _ _ _ pos => exact reads_indentation rfl rfl pos rfl

end IsMargin

end Layout

end Diagram

end TreeSketch
