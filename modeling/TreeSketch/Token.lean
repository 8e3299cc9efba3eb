import TreeSketch.Text.Trim

/-!
# Tokens

The tokens of the two tree languages share one type. A token keeps the text that it stands for and the
bytes that it spans; tokens that end something (a line, the input) stand for no text.
-/

namespace TreeSketch

/-- What a token is. -/
inductive TokenKind where
  /-- The name of an entry. -/
  | name
  /-- The sign `>`: what follows is below the last entry. -/
  | descend
  /-- The sign `|`: what follows is beside the entry above. -/
  | ascend
  /-- The opening `d(` before the name of a directory. -/
  | openDirectory
  /-- The closing `)` after the name of a directory. -/
  | closeDirectory
  /-- The opening `f(` before the name of a file. -/
  | openFile
  /-- The closing `)` after the name of a file. -/
  | closeFile
  /-- What stands on a diagram line before the name. -/
  | margin
  /-- The slashes after the name of a directory in a diagram. -/
  | slash
  /-- The end of a diagram line. -/
  | newline
  /-- A diagram line that separates blocks. -/
  | blankLine
  /-- The end of the input. -/
  | endOfInput
deriving Repr, DecidableEq

namespace TokenKind

/-- The word that messages and token listings use. -/
def label : TokenKind → String
  | name => "name"
  | descend => "go-deeper"
  | ascend => "cascade-reset"
  | openDirectory => "dir-hint-open"
  | closeDirectory => "dir-hint-close"
  | openFile => "file-hint-open"
  | closeFile => "file-hint-close"
  | margin => "tree-prefix"
  | slash => "dir-marker"
  | newline => "newline"
  | blankLine => "blank-line"
  | endOfInput => "eof"

/-- The word that the JSON export uses. -/
def exportLabel : TokenKind → String
  | name => "Name"
  | descend => "GoDeeper"
  | ascend => "CascadeReset"
  | openDirectory => "DirHintOpen"
  | closeDirectory => "DirHintClose"
  | openFile => "FileHintOpen"
  | closeFile => "FileHintClose"
  | margin => "TreePrefix"
  | slash => "DirMarker"
  | newline => "Newline"
  | blankLine => "BlankLine"
  | endOfInput => "Eof"

/-- The kinds that move between depths. -/
def isOperator : TokenKind → Bool
  | descend | ascend => true
  | _ => false

end TokenKind

/-- A token: its kind, the text that it stands for, and the bytes from `start` up to `stop`. -/
structure Token where
  kind : TokenKind
  text : String
  start : Nat
  stop : Nat
deriving Repr, DecidableEq

namespace Token

/-- The token that stands for the characters `text` at the offset `start`. -/
def ofText (kind : TokenKind) (text : List Char) (start : Nat) : Token :=
  ⟨kind, String.ofList text, start, start + Text.byteSize text⟩

/-- A token that stands for no text. -/
def mark (kind : TokenKind) (offset : Nat) : Token :=
  ⟨kind, "", offset, offset⟩

/-- The token is the name of an entry. -/
def isName (token : Token) : Bool :=
  token.kind = .name

/-- The token in angle brackets, with its text where the text varies. -/
def display (token : Token) : String :=
  match token.kind with
  | .name | .margin => "<" ++ token.kind.label ++ ":" ++ token.text ++ ">"
  | _ => "<" ++ token.kind.label ++ ">"

end Token

end TreeSketch
