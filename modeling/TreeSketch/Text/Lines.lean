import TreeSketch.Text.Trim

/-!
# Lines

How a text falls into lines. A line feed ends a line; the piece after the last line feed is a line
too, unless it is empty. A carriage return before the end of a line belongs to the line's end, not to
its content. The two readers of lines differ in one case only, the last line without a line feed:

* `bareLines` takes a carriage return at its end for part of a line end that is cut short,
* `textLines` takes it for content, since no line feed follows.

`joinLines_pieces` says that cutting loses nothing.
-/

namespace TreeSketch.Text

/-- The pieces between the line feeds of a text: one more than it has line feeds. -/
def pieces : List Char → List (List Char)
  | [] => [[]]
  | c :: cs =>
    if c = '\n' then [] :: pieces cs
    else
      match pieces cs with
      | [] => [[c]]
      | piece :: rest => (c :: piece) :: rest

/-- Puts a line feed between neighbouring lines. -/
def joinLines : List (List Char) → List Char
  | [] => []
  | [line] => line
  | line :: rest => line ++ '\n' :: joinLines rest

theorem pieces_ne_nil (cs : List Char) : pieces cs ≠ [] := by
  cases cs with
  | nil => simp [pieces]
  | cons c cs =>
    simp only [pieces]
    split
    · simp
    · split <;> simp

/-- Cutting a text at its line feeds and putting them back gives the text. -/
theorem joinLines_pieces (cs : List Char) : joinLines (pieces cs) = cs := by
  induction cs with
  | nil => rfl
  | cons c cs ih =>
    simp only [pieces]
    split
    · rename_i h
      subst h
      cases hp : pieces cs with
      | nil => exact absurd hp (pieces_ne_nil cs)
      | cons piece rest => simp [joinLines, ← hp, ih]
    · cases hp : pieces cs with
      | nil => exact absurd hp (pieces_ne_nil cs)
      | cons piece rest =>
        rw [hp] at ih
        cases rest with
        | nil => simpa [joinLines] using ih
        | cons next rest => simpa [joinLines] using ih

/-- The pieces of a text that are lines: all but an empty one after the last line feed. -/
def rawLines (cs : List Char) : List (List Char) :=
  let all := pieces cs
  if all.getLast? = some [] then all.dropLast else all

/-- Leaves out one carriage return at the end. -/
def dropReturn (line : List Char) : List Char :=
  if line.getLast? = some '\r' then line.dropLast else line

/-- The contents of the lines, a carriage return at the end of any line left out. -/
def bareLines (cs : List Char) : List (List Char) :=
  (rawLines cs).map dropReturn

/-- The contents of the lines, a carriage return left out only where a line feed follows it. -/
def textLines (cs : List Char) : List (List Char) :=
  let all := pieces cs
  let last := all.getLast?.getD []
  all.dropLast.map dropReturn ++ if last = [] then [] else [last]

end TreeSketch.Text
