import TreeSketch.Text.Quoted
import TreeSketch.Token
import TreeSketch.Tree.Node

/-!
# JSON

Trees and tokens as JSON text. A value is laid out over several lines: what stands inside an array or an
object is two columns further right than what stands around it, one item or field to a line, and an array
without items is written `[]`. In strings only quotes, backslashes and the characters below the space are
escaped.
-/

namespace TreeSketch

/-- The JSON values that exports are made of. -/
inductive Json where
  | string (text : String)
  | number (n : Nat)
  | array (items : List Json)
  | object (fields : List (String × Json))
deriving Repr

namespace Json

/-- A character as it stands in a JSON string. -/
def escapeChar (c : Char) : List Char :=
  if c = '"' then ['\\', '"']
  else if c = '\\' then ['\\', '\\']
  else if c = '\x08' then ['\\', 'b']
  else if c = '\x0c' then ['\\', 'f']
  else if c = '\n' then ['\\', 'n']
  else if c = '\r' then ['\\', 'r']
  else if c = '\t' then ['\\', 't']
  else if c.toNat < 0x10 then ['\\', 'u', '0', '0', '0'] ++ Text.hexDigits c.toNat
  else if c.toNat < 0x20 then ['\\', 'u', '0', '0'] ++ Text.hexDigits c.toNat
  else [c]

/-- A text as a JSON string. -/
def quote (text : String) : String :=
  String.ofList ('"' :: text.toList.flatMap escapeChar ++ ['"'])

/-- Lays out the texts of items or fields between two brackets, each on a line of its own behind two more
columns than `margin`. -/
def block (opening closing margin : String) (lines : List String) : String :=
  if lines.isEmpty then opening ++ closing
  else
    let inner := margin ++ "  "
    opening ++ "\n" ++ ",\n".intercalate (lines.map (inner ++ ·)) ++ "\n" ++ margin ++ closing

mutual

/-- The text of a value whose lines after the first start with `margin`. -/
def renderAt (margin : String) : Json → String
  | string text => quote text
  | number n => toString n
  | array items => block "[" "]" margin (renderItems (margin ++ "  ") items)
  | object fields => block "\x7b" "\x7d" margin (renderFields (margin ++ "  ") fields)

/-- The texts of the items of an array. -/
def renderItems (margin : String) : List Json → List String
  | [] => []
  | item :: rest => renderAt margin item :: renderItems margin rest

/-- The texts of the fields of an object. -/
def renderFields (margin : String) : List (String × Json) → List String
  | [] => []
  | (key, value) :: rest =>
    (quote key ++ ": " ++ renderAt margin value) :: renderFields margin rest

end

/-- The text of a value, without a line feed at the end. -/
def render (json : Json) : String :=
  json.renderAt ""

end Json

namespace Node

mutual

/-- A tree as a JSON value. The entries of a directory are left out when there are none. -/
def toJson : Node → Json
  | file name => .object [("name", .string name), ("kind", .string Kind.file.label)]
  | directory name children =>
    .object <| [("name", .string name), ("kind", .string Kind.directory.label)] ++
      if children.isEmpty then [] else [("children", .array (toJsonAll children))]

/-- Several trees as JSON values. -/
def toJsonAll : List Node → List Json
  | [] => []
  | node :: rest => toJson node :: toJsonAll rest

end

end Node

namespace Token

/-- A token as a JSON value. -/
def toJson (token : Token) : Json :=
  .object [("kind", .string token.kind.exportLabel), ("text", .string token.text),
    ("span", .object [("start", .number token.start), ("end", .number token.stop)])]

end Token

end TreeSketch
