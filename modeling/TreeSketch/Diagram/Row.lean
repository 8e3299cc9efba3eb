import TreeSketch.Diagram.Margin
import TreeSketch.Text.Digit
import TreeSketch.Text.Lines

/-!
# Diagram lines

What one line of a diagram says: either it separates blocks, or it holds a margin and perhaps a name with
slashes behind it. Reading a line never fails. A line that only carries graphics or a comment has no name,
and a line such as `3 directories, 4 files`, which tree printers put below a diagram, separates blocks like
a blank one.
-/

namespace TreeSketch.Diagram

/-- The content of a diagram line. -/
inductive Row where
  /-- The line separates blocks. -/
  | blank
  /-- A margin, a name, which is empty if the line holds no entry, and the slashes behind the name. -/
  | entry (margin name : List Char) (slashes : Nat)
deriving Repr, DecidableEq

namespace Row

/-- What follows a number, if `cs` starts with one. -/
def afterNumber? (cs : List Char) : Option (List Char) :=
  let rest := cs.dropWhile Text.isDigit
  if rest.length < cs.length then some rest else none

/-- The end of a report after the count of directories: nothing, or the count of files. -/
def isFileReport (cs : List Char) : Bool :=
  Text.allBlank cs ||
    (match (Text.dropLead? ", ".toList cs).bind afterNumber? with
    | none => false
    | some counted =>
      match Text.dropLead? " file".toList counted with
      | none => false
      | some ('s' :: rest) => Text.allBlank rest
      | some rest => Text.allBlank rest)

/-- The line only reports how many directories and files a diagram holds. -/
def isReport (line : List Char) : Bool :=
  match (afterNumber? (Text.trimStart line)).bind (Text.dropLead? " director".toList) with
  | some ('y' :: rest) => isFileReport rest
  | some ('i' :: 'e' :: 's' :: rest) => isFileReport rest
  | _ => false

/-- The line holds only bars and blanks, and at least one bar. -/
def isDecoration (line : List Char) : Bool :=
  line.any (fun c => c = '│' || c = '|') && line.all isColumn

/-- The text is a comment as a whole: number signs before a blank or the end. -/
def isComment : List Char → Bool
  | '#' :: cs =>
    match cs.dropWhile (· = '#') with
    | [] => true
    | c :: _ => Text.isBlank c
  | _ => false

/-- Leaves out a comment at the end: blanks, a number sign and what follows. -/
def cutComment : List Char → List Char
  | [] => []
  | c :: cs =>
    if Text.isBlank c && (Text.trimStart (c :: cs)).head? = some '#' then [] else c :: cutComment cs

/-- The name and the slashes behind it in what follows a margin. -/
def content (rest : List Char) : List Char :=
  if isComment rest then [] else Text.trimEnd (cutComment rest)

/-- Reads a line. -/
def ofLine (line : List Char) : Row :=
  if Text.allBlank line || isReport line then .blank
  else if isDecoration line then .entry line [] 0
  else
    let content := content (Margin.restOf line)
    let name := Text.dropEndWhile (· = '/') content
    .entry (Margin.ofLine line) name (content.length - name.length)

end Row

/-- The content of each line of a diagram. -/
def rows (source : List Char) : List Row :=
  (Text.bareLines source).map Row.ofLine

end TreeSketch.Diagram
