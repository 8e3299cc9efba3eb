import TreeSketch.Declarative.Parser
import TreeSketch.Diagram.Parser
import TreeSketch.Diagram.Render
import TreeSketch.Text.Lowercase

/-!
# The two tree languages

A `Dialect` names one of the two languages that trees are written in. `Dialect.detect` guesses which one a
text is written in: it looks like a diagram if it holds tree graphics, or if it has several lines and no
`>`.
-/

namespace TreeSketch

/-- A language that trees are written in. -/
inductive Dialect where
  | declarative
  | diagram
deriving Repr, DecidableEq

namespace Dialect

/-- The name of the language. -/
def label : Dialect → String
  | declarative => "declarative"
  | diagram => "diagram"

/-- The language of a name, in letters of either case. -/
def ofName? (name : String) : Option Dialect :=
  match Text.lowercase name with
  | "declarative" | "syntax" => some .declarative
  | "diagram" | "tree" => some .diagram
  | _ => none

/-- What is said about a name that is no language's. -/
def unknownMessage (name : String) : String :=
  "Unknown syntax: '" ++ name ++ "'. Expected 'declarative' or 'diagram'"

/-- The text holds `piece` somewhere. -/
def holds (piece : List Char) : List Char → Bool
  | [] => piece = []
  | c :: cs => (Text.dropLead? piece (c :: cs)).isSome || holds piece cs

/-- The language that a text seems to be written in. -/
def detect (source : String) : Dialect :=
  let text := Text.trim source.toList
  if text.any (fun c => c = '├' || c = '└' || c = '│') || holds "|--".toList text then .diagram
  else if 1 < (Text.textLines text).length && !text.contains '>' then .diagram
  else .declarative

/-- The tokens of a source. -/
def tokenize (dialect : Dialect) (source : String) : Except SourceError (List Token) :=
  match dialect with
  | declarative => (Declarative.tokenize source.toList).mapError .lex
  | diagram => .ok (Diagram.tokenize source.toList)

/-- The tree of a source. -/
def parse (dialect : Dialect) (source : String) : Except SourceError Node :=
  match dialect with
  | declarative => Declarative.parse source
  | diagram => (Diagram.parse source).mapError .parse

end Dialect

end TreeSketch
