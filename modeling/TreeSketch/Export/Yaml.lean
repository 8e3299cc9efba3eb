import TreeSketch.Export.Scalar
import TreeSketch.Tree.Node

/-!
# YAML

A tree as YAML text in block style. Every entry is a mapping of its name and kind, and of its entries if it
has any. The dash of an item stands in the column of the key above it, and the keys of the item stand two
columns further right.
-/

namespace TreeSketch.Node

/-- The margin before a key in a column. -/
private def yamlMargin (column : Nat) : String :=
  String.ofList (List.replicate column ' ')

/-- The lines of an entry's name and kind, the first without its margin. -/
def yamlHead (column : Nat) (node : Node) : String :=
  "name: " ++ Yaml.scalar column node.name ++ yamlMargin column ++ "kind: " ++ node.kind.label ++
    "\n"

mutual

/-- The lines of an entry whose keys stand in the column `column`, the first without its margin. -/
def yamlAt (column : Nat) : Node → String
  | file name => yamlHead column (file name)
  | directory name children =>
    yamlHead column (directory name []) ++
      if children.isEmpty then ""
      else yamlMargin column ++ "children:\n" ++ yamlItems column children

/-- The lines of the items of a list whose dashes stand in the column `column`. -/
def yamlItems (column : Nat) : List Node → String
  | [] => ""
  | node :: rest => yamlMargin column ++ "- " ++ yamlAt (column + 2) node ++ yamlItems column rest

end

/-- A tree as YAML text. -/
def yaml (node : Node) : String :=
  node.yamlAt 0

end TreeSketch.Node
