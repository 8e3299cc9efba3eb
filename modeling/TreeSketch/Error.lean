import TreeSketch.Diagram.Margin
import TreeSketch.Text.Position
import TreeSketch.Text.Quoted
import TreeSketch.Token
import TreeSketch.Tree.Kind

/-!
# What can be wrong with a source

The faults of the two tree languages, as causes. `LexError` holds the faults of the words of a declarative
source, `ParseError` those of the tree that either language describes. Each has one text, `message`.
-/

namespace TreeSketch

/-- A byte offset and the line and column where it lies. -/
structure Place where
  offset : Nat
  position : Text.Position
deriving Repr, DecidableEq

/-- A fault in one word of a declarative source. -/
inductive LexError where
  /-- A word starts with `d(` or `f(` and does not close it. -/
  | unterminatedHint (hint : Kind) (place : Place)
  /-- A word closes a parenthesis that it has not opened. -/
  | unmatchedClose (place : Place)
  /-- A hint holds no name. -/
  | emptyHint (hint : Kind) (place : Place)
  /-- A word holds a control character. -/
  | illegalCharacter (character : Char) (place : Place)
deriving Repr, DecidableEq

namespace LexError

/-- The letter before the parenthesis of a hint. -/
def hintLetter : Kind → Char
  | .directory => 'd'
  | .file => 'f'

/-- Where the fault is. -/
def place : LexError → Place
  | unterminatedHint _ place | unmatchedClose place | emptyHint _ place
  | illegalCharacter _ place => place

/-- The character at the place of the fault. -/
def character : LexError → Char
  | unterminatedHint hint _ | emptyHint hint _ => hintLetter hint
  | unmatchedClose _ => ')'
  | illegalCharacter character _ => character

/-- The text of the fault. -/
def message : LexError → String
  | unterminatedHint hint place =>
    "unterminated `" ++ (hintLetter hint).toString ++ "(` hint at " ++ place.position.display
  | unmatchedClose place => "unmatched `)` at " ++ place.position.display
  | emptyHint hint place =>
    "empty `" ++ (hintLetter hint).toString ++ "()` hint at " ++ place.position.display
  | illegalCharacter character place =>
    "illegal character " ++ Text.quotedChar character ++ " at " ++ place.position.display

end LexError

/-- What is wrong with the indentation of a diagram line. -/
inductive IndentIssue where
  /-- The width is not a whole number of levels. -/
  | partialUnit (width unit : Nat)
  /-- The entry is more than one level below the entry before it. -/
  | jump (last next : Nat)
  /-- The entry stands left of the first entry of its block. -/
  | aboveRoot
  /-- The block is indented with tabs and with spaces. -/
  | mixedWhitespace
deriving Repr, DecidableEq

namespace IndentIssue

/-- The text of the issue. -/
def message : IndentIssue → String
  | partialUnit width unit =>
    "width " ++ toString width ++ " is not a multiple of the unit " ++ toString unit
  | jump last next => "jumps from depth " ++ toString last ++ " to depth " ++ toString next
  | aboveRoot => "entry is shallower than the tree root"
  | mixedWhitespace => "tabs and spaces are mixed"

end IndentIssue

/-- A fault in the tree that a source describes. Lines count from one. -/
inductive ParseError where
  /-- The source holds nothing but blank characters. -/
  | emptyInput
  /-- A declarative source holds no name. -/
  | noRoot
  /-- A `>` without an entry before it or without a name after it. -/
  | danglingOperator (place : Place)
  /-- A `|` beside the root. -/
  | aboveRoot (place : Place)
  /-- A second entry beside the root. -/
  | secondRoot (name : String) (place : Place)
  /-- A `>` behind an entry that the source says is a file. -/
  | childrenUnderFile (name : String) (place : Place)
  /-- A name that a diagram would not give back. -/
  | unfitName (name : String) (place : Place)
  /-- A token where the grammar has none. -/
  | unexpectedToken (found : TokenKind) (place : Place)
  /-- A diagram line whose indentation has no place in its block. -/
  | inconsistentIndent (line : Nat) (issue : IndentIssue)
  /-- A diagram block with margins of two styles. -/
  | mixedStyles (line : Nat) (expected found : Diagram.Style)
  /-- A diagram without entries. -/
  | noEntries (line : Nat)
deriving Repr, DecidableEq

namespace ParseError

/-- The offset and position of a fault that has one. -/
def place? : ParseError → Option Place
  | danglingOperator place | aboveRoot place | secondRoot _ place | childrenUnderFile _ place
  | unfitName _ place | unexpectedToken _ place => some place
  | emptyInput | noRoot | inconsistentIndent _ _ | mixedStyles _ _ _ | noEntries _ => none

/-- The line of a fault that has one. -/
def line? : ParseError → Option Nat
  | danglingOperator place | aboveRoot place | secondRoot _ place | childrenUnderFile _ place
  | unfitName _ place | unexpectedToken _ place => some (place.position.line + 1)
  | inconsistentIndent line _ | mixedStyles line _ _ | noEntries line => some line
  | emptyInput | noRoot => none

/-- The text of the fault. -/
def message : ParseError → String
  | emptyInput => "input is empty"
  | noRoot => "input contains no entry names"
  | danglingOperator place => "dangling `>` at " ++ place.position.display
  | aboveRoot place => "`|` at " ++ place.position.display ++ " climbs above the root"
  | secondRoot name place =>
    "second top-level entry `" ++ name ++ "` at " ++ place.position.display ++
      "; a tree has exactly one root"
  | childrenUnderFile name place =>
    "`" ++ name ++ "` is marked as a file and cannot have children (at " ++
      place.position.display ++ ")"
  | unfitName name place =>
    "name `" ++ name ++ "` at " ++ place.position.display ++
      " would not survive as a diagram entry"
  | unexpectedToken found place =>
    "unexpected " ++ found.label ++ " at " ++ place.position.display
  | inconsistentIndent line issue =>
    "inconsistent indentation on line " ++ toString line ++ ": " ++ issue.message
  | mixedStyles line expected found =>
    "line " ++ toString line ++ " uses " ++ found.label ++ " prefixes but the tree uses " ++
      expected.label ++ " prefixes"
  | noEntries line => "no tree entries found (line " ++ toString line ++ ")"

end ParseError

/-- A fault in a source of either language. -/
inductive SourceError where
  | lex (error : LexError)
  | parse (error : ParseError)
deriving Repr, DecidableEq

namespace SourceError

/-- The text of the fault. -/
def message : SourceError → String
  | lex error => error.message
  | parse error => error.message

end SourceError

end TreeSketch
