import TreeSketch.Text.Trim

/-!
# Margins

What stands on a diagram line before the name is its margin. There are three kinds besides the empty
one: a *connector* (`├── `, `|-- `, …) behind columns of bars and blanks, a *bullet* (`- `) behind blanks,
and plain *indentation*. `Margin.restOf` finds the end of the margin of a line and `Shape.ofMargin`
measures a margin, in characters.
-/

namespace TreeSketch.Diagram

/-- What introduces an entry on its line. -/
inductive Style where
  /-- Nothing. -/
  | bare
  /-- A corner and strokes: `├──`, `+--`. -/
  | connector
  /-- One of `-`, `*` and `+` before a blank. -/
  | bullet
  /-- Blanks alone. -/
  | indent
deriving Repr, DecidableEq

namespace Style

/-- The word that messages use. -/
def label : Style → String
  | bare => "bare"
  | connector => "connector"
  | bullet => "bullet"
  | indent => "indentation"

end Style

/-- The characters that a column of the margin can hold above a connector. -/
def isColumn (c : Char) : Bool :=
  c = '│' || c = '|' || Text.isBlank c

/-- The characters that a connector can start with. -/
def isCorner (c : Char) : Bool :=
  c = '├' || c = '└' || c = '|' || c = '\x60' || c = '+' || c = '\\'

/-- The characters that a connector continues with, all of one kind. -/
def isStroke (c : Char) : Bool :=
  c = '─' || c = '-'

/-- The characters between a connector and its name. -/
def isPadding (c : Char) : Bool :=
  c = ' ' || c = '\t' || c = '\u00a0'

/-- The characters that a bullet can be. -/
def isBullet (c : Char) : Bool :=
  c = '-' || c = '*' || c = '+'

namespace Margin

/-- What follows a connector and its padding, if `cs` starts with them. Strokes that run into text belong
to a name and are no connector. -/
def afterConnector? : List Char → Option (List Char)
  | corner :: stroke :: cs =>
    if isCorner corner && isStroke stroke then
      let rest := cs.dropWhile (· = stroke)
      match rest with
      | [] => some []
      | c :: _ => if isPadding c then some (rest.dropWhile isPadding) else none
    else none
  | _ => none

/-- The columns before the first connector of a line, and what follows the connector. -/
def splitConnector? : List Char → Option (List Char × List Char)
  | [] => none
  | c :: cs =>
    match afterConnector? (c :: cs) with
    | some rest => some ([], rest)
    | none =>
      if isColumn c then (splitConnector? cs).map fun (lead, rest) => (c :: lead, rest) else none

/-- The blanks before the bullet of a line, and what follows the bullet and its blanks. -/
def splitBullet? (cs : List Char) : Option (List Char × List Char) :=
  match cs.dropWhile Text.isBlank with
  | bullet :: blank :: rest =>
    if isBullet bullet && Text.isBlank blank then
      some (cs.takeWhile Text.isBlank, rest.dropWhile Text.isBlank)
    else none
  | _ => none

/-- What follows the margin of a line: a connector wins over a bullet, and a bullet over indentation. -/
def restOf (line : List Char) : List Char :=
  match splitConnector? line with
  | some (_, rest) => rest
  | none =>
    match splitBullet? line with
    | some (_, rest) => rest
    | none => Text.trimStart line

/-- The margin of a line. -/
def ofLine (line : List Char) : List Char :=
  line.take (line.length - (restOf line).length)

end Margin

/-- The measures of a margin, in characters. -/
structure Shape where
  style : Style
  /-- The width of what stands before the connector or bullet. -/
  leadWidth : Nat
  /-- The width of the connector or bullet with its padding. -/
  markerWidth : Nat
  leadHasTabs : Bool
  leadHasSpaces : Bool
deriving Repr, DecidableEq

namespace Shape

/-- The measures of a margin that starts with the characters `lead`. -/
def measure (style : Style) (lead : List Char) (markerWidth : Nat) : Shape where
  style := style
  leadWidth := lead.length
  markerWidth := markerWidth
  leadHasTabs := lead.contains '\t'
  leadHasSpaces := lead.contains ' ' || lead.contains '\u00a0'

/-- The measures of a margin. Whatever follows the lead counts as the marker. -/
def ofMargin (margin : List Char) : Shape :=
  match Margin.splitConnector? margin with
  | some (lead, _) => measure .connector lead (margin.length - lead.length)
  | none =>
    match Margin.splitBullet? margin with
    | some (lead, _) => measure .bullet lead (margin.length - lead.length)
    | none => if margin = [] then measure .bare [] 0 else measure .indent margin 0

end Shape

end TreeSketch.Diagram
