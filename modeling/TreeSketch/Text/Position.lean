import TreeSketch.Text.Trim

/-!
# Positions in a text

A byte offset is shown to people as a line and a column. `Position.ofOffset` finds them by bisection
in the table of the offsets at which lines begin (`LineIndex`), so that a text is scanned once however
many offsets are asked for. Offsets beyond the end belong to the last line.
-/

namespace TreeSketch.Text

/-- A place in a text: the number of line feeds before it, and the bytes since the last of them. -/
structure Position where
  line : Nat
  column : Nat
deriving Repr, DecidableEq

namespace Position

/-- The place as people count it, both numbers from one. -/
def display (p : Position) : String :=
  toString (p.line + 1) ++ ":" ++ toString (p.column + 1)

end Position

/-- The offsets at which the lines of a text begin, in increasing order; the first is 0. -/
structure LineIndex where
  starts : Array Nat
deriving Repr, DecidableEq

namespace LineIndex

/-- The offsets just after the line feeds of `cs`, a text that itself begins at `offset`. -/
def startsAfter (offset : Nat) : List Char → List Nat
  | [] => []
  | c :: cs =>
    let next := offset + c.utf8Size
    if c = '\n' then next :: startsAfter next cs else startsAfter next cs

/-- The table of a text. -/
def ofText (cs : List Char) : LineIndex :=
  ⟨(0 :: startsAfter 0 cs).toArray⟩

/-- The number of lines, the one after a final line feed included. -/
def lineCount (index : LineIndex) : Nat :=
  index.starts.size

/-- The line among `low`, …, `high - 1` that holds `offset`: the last one that begins at or before it,
if line `low` does. -/
def bisect (starts : Array Nat) (offset low high : Nat) : Nat :=
  if low + 1 < high then
    let middle := (low + high) / 2
    if starts.getD middle 0 ≤ offset then bisect starts offset middle high
    else bisect starts offset low middle
  else low
termination_by high - low

/-- The line and column of a byte offset. -/
def position (index : LineIndex) (offset : Nat) : Position :=
  let line := bisect index.starts offset 0 index.starts.size
  ⟨line, offset - index.starts.getD line 0⟩

end LineIndex

namespace Position

/-- The line and column of a byte offset in a text. -/
def ofOffset (cs : List Char) (offset : Nat) : Position :=
  (LineIndex.ofText cs).position offset

end Position

end TreeSketch.Text
