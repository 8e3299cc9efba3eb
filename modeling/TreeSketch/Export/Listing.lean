import TreeSketch.Text.Position
import TreeSketch.Token

/-!
# Token listings

The tokens of a source in their short form, one line of the listing to a line of the source. The end of the
input is not listed.
-/

namespace TreeSketch.Token

/-- The token ends a line of its source. -/
def endsLine (token : Token) : Bool :=
  token.kind = .newline || token.kind = .blankLine

/-- The listing of tokens behind a token on the line `line`; the listing so far ends a line if `fresh`. -/
def listingFrom (index : Text.LineIndex) (line : Nat) (fresh : Bool) : List Token → String
  | [] => if fresh then "" else "\n"
  | token :: rest =>
    let next := (index.position token.start).line
    let lead := if next ≠ line && !fresh then "\n" else ""
    let ending := if token.endsLine then "\n" else ""
    lead ++ token.display ++ ending ++ listingFrom index next token.endsLine rest

/-- The listing of the tokens of a source. -/
def listing (source : String) (tokens : List Token) : String :=
  listingFrom (Text.LineIndex.ofText source.toList) 0 true
    (tokens.filter (·.kind ≠ .endOfInput))

end TreeSketch.Token
