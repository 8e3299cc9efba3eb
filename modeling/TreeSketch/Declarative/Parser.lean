import TreeSketch.Declarative.Lexer
import TreeSketch.Diagram.Lexer
import TreeSketch.Tree.Outline

/-!
# Reading the declarative language

`project > src > main.py | tests` is a tree: a name stands below the entry that was last entered, `>` enters
the entry before it, and `|` leaves the last one entered. `items` groups the tokens into these three moves,
`outline` follows them with the state `Frames`, and the outline is the tree.

A name has to come back from a diagram unchanged, or the tree could not be shown.
-/

namespace TreeSketch.Declarative

/-! ## Moves -/

/-- One move of a declarative source, with its place. -/
inductive Item where
  /-- An entry. -/
  | entry (label : Label) (place : Place)
  /-- A `>`. -/
  | descend (place : Place)
  /-- A `|`. -/
  | ascend (place : Place)
deriving Repr, DecidableEq

/-- What a plain word says about an entry: slashes at its end say that it is a directory and are no part of
the name, unless there is nothing else. -/
def wordLabel (word : String) : Label :=
  let name := Text.dropEndWhile (· = '/') word.toList
  if name = [] || name.length = word.toList.length then ⟨word, none⟩
  else ⟨String.ofList name, some ⟨.directory, .marker⟩⟩

/-- The kind that a token opens a hint for. -/
def hintOf : TokenKind → Option Kind
  | .openDirectory => some .directory
  | .openFile => some .file
  | _ => none

/-- The moves that tokens stand for. A hint takes three tokens; tokens of no other order are refused. -/
def items (index : Text.LineIndex) : List Token → Except ParseError (List Item)
  | [] => .ok []
  | token :: rest =>
    let place := placeAt index token.start
    let refuse (found : Token) : Except ParseError (List Item) :=
      .error (.unexpectedToken found.kind (placeAt index found.start))
    match token.kind with
    | .endOfInput => .ok []
    | .name => (items index rest).map (.entry (wordLabel token.text) place :: ·)
    | .descend => (items index rest).map (.descend place :: ·)
    | .ascend => (items index rest).map (.ascend place :: ·)
    | kind =>
      match hintOf kind, rest with
      | some hinted, name :: close :: rest =>
        if name.kind ≠ .name then refuse name
        else if close.kind ≠ (hintTokens hinted).2 then refuse close
        else
          let label : Label := ⟨name.text, some ⟨hinted, .hint⟩⟩
          (items index rest).map (.entry label (placeAt index name.start) :: ·)
      | some _, [name] => if name.kind ≠ .name then refuse name else refuse (.mark .endOfInput 0)
      | some _, [] => refuse (.mark .endOfInput 0)
      | none, _ => refuse token

/-! ## Entries and their depths -/

/-- The entries that are entered, from the inside out. Each level knows the youngest entry on it, which is
the one that `>` enters. -/
structure Frames where
  /-- The youngest entry of the innermost level. -/
  latest : Option Label
  /-- The youngest entries of the levels around it, nearest first. -/
  outer : List (Option Label)
deriving Repr, DecidableEq

namespace Frames

/-- Nothing is entered and nothing written. -/
def start : Frames :=
  ⟨none, []⟩

/-- The number of entries that are entered. -/
def depth (frames : Frames) : Nat :=
  frames.outer.length

/-- The entry is the youngest one from now on. Beside the root there is room for one entry only. -/
def write (frames : Frames) (label : Label) (place : Place) : Except ParseError Frames :=
  if !Diagram.readsAsName label.name.toList then .error (.unfitName label.name place)
  else if frames.outer = [] && frames.latest.isSome then .error (.secondRoot label.name place)
  else .ok { frames with latest := some label }

/-- Enters the youngest entry, unless the source says that it is a file. -/
def enter (frames : Frames) (place : Place) : Except ParseError Frames :=
  match frames.latest with
  | none => .error (.danglingOperator place)
  | some label =>
    if label.fixed.map (·.kind) = some .file then .error (.childrenUnderFile label.name place)
    else .ok ⟨none, frames.latest :: frames.outer⟩

/-- Leaves the entry that was entered last. -/
def leave (frames : Frames) (place : Place) : Except ParseError Frames :=
  match frames.outer with
  | [] => .error (.aboveRoot place)
  | latest :: outer => .ok ⟨latest, outer⟩

end Frames

/-- The items go on with an entry. -/
def startsWithEntry : List Item → Bool
  | .entry _ _ :: _ => true
  | _ => false

/-- The entries of a list of moves with their depths. -/
def outlineFrom : Frames → List Item → Except ParseError Outline
  | _, [] => .ok []
  | frames, .entry label place :: rest => do
    let next ← frames.write label place
    let below ← outlineFrom next rest
    .ok ((frames.depth, label) :: below)
  | frames, .descend place :: rest =>
    if !startsWithEntry rest then .error (.danglingOperator place)
    else do
      let next ← frames.enter place
      outlineFrom next rest
  | frames, .ascend place :: rest => do
    let next ← frames.leave place
    outlineFrom next rest

/-- The tree of a list of tokens. -/
def treeOfTokens (index : Text.LineIndex) (tokens : List Token) : Except ParseError Node := do
  if !tokens.any (·.isName) then
    .error .noRoot
  else
    let items ← items index tokens
    let outline ← outlineFrom .start items
    match outline.trees with
    | tree :: _ => .ok tree
    | [] => .error .noRoot

/-- The tree of a declarative source. -/
def parse (source : String) : Except SourceError Node := do
  let text := source.toList
  if Text.allBlank text then
    .error (.parse .emptyInput)
  else
    let tokens ← (tokenize text).mapError .lex
    (treeOfTokens (Text.LineIndex.ofText text) tokens).mapError .parse

end TreeSketch.Declarative
