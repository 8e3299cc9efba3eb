import TreeSketch.Diagram.Row
import TreeSketch.Token

/-!
# The tokens of a diagram

Each line of a diagram becomes a blank-line token, or a margin, a name and slashes, as far as they are
there, and a newline token. `readsAsName` asks the lexer whether a name comes back from a diagram as it
went in; the declarative parser lets no other name pass.
-/

namespace TreeSketch.Diagram

namespace Row

/-- The tokens of a line of `width` bytes that starts at the offset `start`. Slashes behind nothing, which
would be a name without characters, are left out. -/
def tokens (start width : Nat) : Row → List Token
  | .blank => [⟨.blankLine, "", start, start + width⟩]
  | .entry margin name slashes =>
    let nameStart := start + Text.byteSize margin
    let nameStop := nameStart + Text.byteSize name
    let marginToken := if margin = [] then [] else [Token.ofText .margin margin start]
    let nameToken := if name = [] then [] else [Token.ofText .name name nameStart]
    let slashToken :=
      if name = [] || slashes = 0 then [] else [⟨.slash, "/", nameStop, nameStop + slashes⟩]
    marginToken ++ nameToken ++ slashToken ++ [Token.mark .newline (start + width)]

end Row

/-- The tokens of lines of which the first starts at the offset `start`. Carriage returns and the line
feeds between the lines belong to no token. -/
def tokensFrom (start : Nat) : List (List Char) → List Token
  | [] => []
  | line :: rest =>
    let bare := Text.dropReturn line
    (Row.ofLine bare).tokens start (Text.byteSize bare) ++
      tokensFrom (start + Text.byteSize line + 1) rest

/-- The tokens of a diagram. -/
def tokenize (source : List Char) : List Token :=
  tokensFrom 0 (Text.rawLines source) ++ [Token.mark .endOfInput (Text.byteSize source)]

/-- The tokens of the text have the given kinds, and one of them is the name `name`. -/
def readsAs (source : List Char) (kinds : List TokenKind) (name : List Char) : Bool :=
  let tokens := tokenize source
  tokens.map (·.kind) = kinds &&
    tokens.any fun token => token.isName && token.text = String.ofList name

/-- The name comes back from a diagram, from the line of the root and from behind a connector. -/
def readsAsName (name : List Char) : Bool :=
  !name.contains '\n' && !name.contains '\r' &&
    readsAs name [.name, .newline, .endOfInput] name &&
    readsAs ("└── ".toList ++ name) [.margin, .name, .newline, .endOfInput] name

end TreeSketch.Diagram
