import TreeSketch.Text.Lines

/-!
# Paths

A path is a text in which `/` separates names. `steps` reads it as the moves that a walk through a file
system makes, `join` writes one path behind another, and `fileName?` and `extension?` look at its last
name. Nothing here asks whether anything exists; `TreeSketch.Files.System` does.
-/

namespace TreeSketch.Path

/-- One move of a walk through a file system. -/
inductive Step where
  /-- Stay, at a place that has to be a directory: written `.`, or a slash at the end. -/
  | here
  /-- Go to the parent: written `..`. -/
  | up
  /-- Go to the entry of this name. -/
  | into (name : String)
deriving Repr, DecidableEq

/-- The pieces of a text between the characters `separator`. -/
def splitAt (separator : Char) : List Char → List (List Char)
  | [] => [[]]
  | c :: cs =>
    if c = separator then [] :: splitAt separator cs
    else
      match splitAt separator cs with
      | [] => [[c]]
      | piece :: rest => (c :: piece) :: rest

/-- The move that one piece between slashes stands for; an empty piece stands for none. -/
def stepOf (piece : List Char) : Option Step :=
  if piece = [] then none
  else if piece = ['.'] then some .here
  else if piece = ['.', '.'] then some .up
  else some (.into (String.ofList piece))

/-- The pieces of a path between its slashes. -/
def pieces (path : String) : List (List Char) :=
  splitAt '/' path.toList

/-- The path of pieces. -/
def ofPieces (pieces : List (List Char)) : String :=
  String.ofList (['/'].intercalate pieces)

/-- The piece stands for a move that changes the place. -/
def isMove (piece : List Char) : Bool :=
  piece ≠ [] && piece ≠ ['.']

/-- The moves of a path. Slashes that follow one another count once, and a slash at the end asks for a
directory. A path that starts with a slash starts at the same place as any other: the working directory
is the root of every walk. -/
def steps (path : String) : List Step :=
  let moves := (pieces path).filterMap stepOf
  if moves ≠ [] && (pieces path).getLast? = some [] then moves ++ [.here] else moves

/-- The moves of a path that change the place. -/
def moves (path : String) : List Step :=
  (steps path).filter (· ≠ .here)

/-- The text of a move. -/
def Step.text : Step → String
  | here => "."
  | up => ".."
  | into name => name

/-- A path of the given moves, behind a slash if it is `absolute`. -/
def ofSteps (absolute : Bool) (steps : List Step) : String :=
  (if absolute then "/" else "") ++ "/".intercalate (steps.map Step.text)

/-- The path is not empty and starts with a slash. -/
def isAbsolute (path : String) : Bool :=
  path.toList.head? = some '/'

/-- The path `name`, read from the directory `base`. -/
def join (base name : String) : String :=
  if isAbsolute name || base = "" then name
  else if base.toList.getLast? = some '/' then base ++ name
  else base ++ "/" ++ name

/-- The last name of a path, if its last move goes into a named entry. -/
def fileName? (path : String) : Option String :=
  match (moves path).getLast? with
  | some (.into name) => some name
  | _ => none

/-- Cuts a file name at its last dot, unless there is none or it is the first character. -/
def splitExtension (name : String) : String × Option String :=
  let cs := name.toList
  let extension := (cs.reverse.takeWhile (· ≠ '.')).reverse
  let stem := cs.take (cs.length - extension.length - 1)
  if extension.length = cs.length || stem = [] then (name, none)
  else (String.ofList stem, some (String.ofList extension))

/-- What follows the last dot of the last name. -/
def extension? (path : String) : Option String :=
  (fileName? path).bind fun name => (splitExtension name).2

/-- The text names one entry of the directory that it is read in: it has no separator of any system and
does not stand for the directory itself or its parent. -/
def isSingleName (name : String) : Bool :=
  name ≠ "" && name ≠ "." && name ≠ ".." && !name.toList.contains '/' && !name.toList.contains '\\'

end TreeSketch.Path
