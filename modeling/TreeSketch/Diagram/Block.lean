import TreeSketch.Diagram.Row
import TreeSketch.Error
import TreeSketch.Tree.Outline

/-!
# Blocks of a diagram

The entries of a diagram, grouped into the blocks that blank lines separate, and the depth of every entry
of a block. What counts as one level is read off the block itself:

* the first entry's lead is common to the whole block;
* a connector stands one level below what its columns cover, and the first connector is as wide as a
  level;
* for bullets and indentation the first lead beyond the common one is a level, and bullets stand one
  level down when the block starts without one.

`Gauge` holds what has been read off so far, and `Block.outline` lists the entries with their depths below
the first one, or says which line has no place.
-/

namespace TreeSketch.Diagram

/-- A diagram line that holds an entry, by its number from one. -/
structure Entry where
  line : Nat
  margin : List Char
  name : String
  /-- Slashes stand behind the name. -/
  marked : Bool
deriving Repr, DecidableEq

namespace Entry

/-- What the line says about its entry. -/
def label (entry : Entry) : Label :=
  ⟨entry.name, if entry.marked then some ⟨.directory, .marker⟩ else none⟩

/-- The fault that the entry's indentation has no place in its block. -/
def misplaced (entry : Entry) (issue : IndentIssue) : ParseError :=
  .inconsistentIndent entry.line issue

end Entry

/-! ## Grouping lines -/

/-- Puts a block before others, unless it has no entries. -/
def consBlock (block : List Entry) (blocks : List (List Entry)) : List (List Entry) :=
  if block = [] then blocks else block :: blocks

/-- The entries before the first blank row, and the blocks after it; the first row is line `line`. -/
def splitBlocks (line : Nat) : List Row → List Entry × List (List Entry)
  | [] => ([], [])
  | .blank :: rest =>
    let (block, blocks) := splitBlocks (line + 1) rest
    ([], consBlock block blocks)
  | .entry margin name slashes :: rest =>
    let (block, blocks) := splitBlocks (line + 1) rest
    if name = [] then (block, blocks)
    else (⟨line, margin, String.ofList name, slashes ≠ 0⟩ :: block, blocks)

/-- The blocks of a diagram, none of them empty. -/
def blocksOf (rows : List Row) : List (List Entry) :=
  let (block, blocks) := splitBlocks 1 rows
  consBlock block blocks

/-- The blocks of a diagram, of which there has to be one. The line that is blamed for their absence is
the last one. -/
def readBlocks (source : List Char) : Except ParseError (List (List Entry)) :=
  if Text.allBlank source then .error .emptyInput
  else
    let rows := rows source
    match blocksOf rows with
    | [] => .error (.noEntries (max rows.length 1))
    | blocks => .ok blocks

/-! ## Measuring depths -/

/-- The blank characters that a block is indented with. -/
inductive Whitespace where
  | tabs
  | spaces
deriving Repr, DecidableEq

/-- What the first entry of a block settles for all others. -/
structure Frame where
  /-- The width of the common lead. -/
  base : Nat
  /-- The block starts without a connector or bullet. -/
  startsBare : Bool
deriving Repr, DecidableEq

namespace Frame

/-- The frame of a block that starts with a margin of this shape. -/
def ofShape (shape : Shape) : Frame :=
  ⟨shape.leadWidth, shape.style = .bare || shape.style = .indent⟩

end Frame

/-- What has been read off the entries of a block so far. -/
structure Gauge where
  style : Option Style
  /-- The width of a level. -/
  unit : Option Nat
  whitespace : Option Whitespace
deriving Repr, DecidableEq

namespace Gauge

/-- Nothing has been read off yet. -/
def unset : Gauge :=
  ⟨none, none, none⟩

/-- Takes note of the blank characters in an entry's lead: the block has to keep to one kind. -/
def noteWhitespace (gauge : Gauge) (entry : Entry) (shape : Shape) : Except ParseError Gauge :=
  let keep (used : Whitespace) : Except ParseError Gauge :=
    if gauge.whitespace = none || gauge.whitespace = some used then
      .ok { gauge with whitespace := some used }
    else .error (entry.misplaced .mixedWhitespace)
  match shape.leadHasTabs, shape.leadHasSpaces with
  | true, true => .error (entry.misplaced .mixedWhitespace)
  | true, false => keep .tabs
  | false, true => keep .spaces
  | false, false => .ok gauge

/-- Takes note of the style of an entry: the block has to keep to one, bare entries apart. -/
def noteStyle (gauge : Gauge) (entry : Entry) (style : Style) : Except ParseError Gauge :=
  if style = .bare then .ok gauge
  else
    match gauge.style with
    | none => .ok { gauge with style := some style }
    | some expected =>
      if expected = style then .ok gauge
      else .error (.mixedStyles entry.line expected style)

/-- The number of levels in a width; the first width that counts, `candidate`, becomes the level. -/
def levels (gauge : Gauge) (entry : Entry) (width candidate : Nat) :
    Except ParseError (Nat × Gauge) :=
  let unit := gauge.unit.getD candidate
  if unit = 0 || width % unit ≠ 0 then .error (entry.misplaced (.partialUnit width unit))
  else .ok (width / unit, { gauge with unit := some unit })

/-- The depth of an entry within its block, and what is known after it. -/
def depth (gauge : Gauge) (frame : Frame) (entry : Entry) : Except ParseError (Nat × Gauge) := do
  let shape := Shape.ofMargin entry.margin
  let gauge ← gauge.noteWhitespace entry shape
  if shape.leadWidth < frame.base then
    .error (entry.misplaced .aboveRoot)
  else
    let lead := shape.leadWidth - frame.base
    let style := if shape.style = .indent && lead = 0 then .bare else shape.style
    let gauge ← gauge.noteStyle entry style
    match style with
    | .bare => .ok (0, gauge)
    | .connector =>
      let (levels, gauge) ← gauge.levels entry lead shape.markerWidth
      .ok (levels + 1, gauge)
    | .bullet =>
      let offset := if frame.startsBare then 1 else 0
      if lead = 0 then .ok (offset, gauge)
      else
        let (levels, gauge) ← gauge.levels entry lead lead
        .ok (levels + offset, gauge)
    | .indent => gauge.levels entry lead lead

end Gauge

/-! ## Outlines -/

namespace Block

/-- The entries after the first one with their depths below it. The first entry has the depth `root` and
the entry before these is `last` levels below it. -/
def outlineBelow (frame : Frame) (root : Nat) :
    Gauge → Nat → List Entry → Except ParseError Outline
  | _, _, [] => .ok []
  | gauge, last, entry :: rest => do
    let (depth, gauge) ← gauge.depth frame entry
    if depth < root then
      .error (entry.misplaced .aboveRoot)
    else
      let next := depth - root
      if last + 1 < next then
        .error (entry.misplaced (.jump last next))
      else
        let below ← outlineBelow frame root gauge next rest
        .ok ((next, entry.label) :: below)

/-- The entries of a block with their depths below the first one. -/
def outline : List Entry → Except ParseError Outline
  | [] => .ok []
  | first :: rest => do
    let frame := Frame.ofShape (Shape.ofMargin first.margin)
    let (root, gauge) ← Gauge.unset.depth frame first
    let below ← outlineBelow frame root gauge 0 rest
    .ok ((0, first.label) :: below)

/-- The trees of a block. -/
def trees (block : List Entry) : Except ParseError (List Node) :=
  (outline block).map Outline.trees

end Block

end TreeSketch.Diagram
