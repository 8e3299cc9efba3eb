import TreeSketch.Text.Lines

/-!
# Fenced blocks

Diagrams usually stand in fenced blocks of a longer document. A *fence* is a line that starts, blanks apart,
with at least three equal backticks or tildes. The first fence opens a block, and a fence of the same
character that is at least as long and holds nothing else closes it; a block without such a line runs to the
end of the document. `Fence.extract` keeps the blocks and drops what stands around them.
-/

namespace TreeSketch

/-- The start of a fence: its character and how often it stands there. -/
structure Fence where
  character : Char
  length : Nat
deriving Repr, DecidableEq

namespace Fence

/-- The characters that fences are made of. -/
def isMark (c : Char) : Bool :=
  c = '\x60' || c = '~'

/-- The fence at the start of a line. -/
def ofLine? (line : List Char) : Option Fence :=
  match Text.trimStart line with
  | [] => none
  | c :: cs =>
    let length := ((c :: cs).takeWhile (· = c)).length
    if isMark c && 3 ≤ length then some ⟨c, length⟩ else none

/-- The line closes a block that `opening` has opened. -/
def closedBy (opening : Fence) (line : List Char) : Bool :=
  match ofLine? line with
  | none => false
  | some closing =>
    closing.character = opening.character && opening.length ≤ closing.length &&
      (Text.trim line).all isMark

/-- Puts a line before the first of several blocks. -/
def consLine (line : List Char) : List (List (List Char)) → List (List (List Char))
  | [] => [[line]]
  | block :: blocks => (line :: block) :: blocks

/-- The fenced blocks among the lines. Within a block, whose opening is then given, the first of them holds
the lines that are left of that block. -/
def blocks : Option Fence → List (List Char) → List (List (List Char))
  | none, [] => []
  | some _, [] => [[]]
  | none, line :: rest =>
    match ofLine? line with
    | none => blocks none rest
    | some opening => blocks (some opening) rest
  | some opening, line :: rest =>
    if opening.closedBy line then [] :: blocks none rest
    else consLine line (blocks (some opening) rest)

/-- Joins texts with a line feed and an empty line between them. -/
def joinBlocks : List (List Char) → List Char
  | [] => []
  | [block] => block
  | block :: rest => block ++ '\n' :: '\n' :: joinBlocks rest

/-- The fenced blocks of a document with an empty line between them, or the document itself if it has
none. -/
def extract (document : String) : String :=
  match blocks none (Text.textLines document.toList) with
  | [] => document
  | found => String.ofList (joinBlocks (found.map Text.joinLines) ++ ['\n'])

end Fence

end TreeSketch
