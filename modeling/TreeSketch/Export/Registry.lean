import TreeSketch.Diagram.Render
import TreeSketch.Export.Json
import TreeSketch.Export.Yaml
import TreeSketch.Tree.Statistics

/-!
# Formats for trees

A `Formatter` writes a tree in some format, and a `Registry` holds formatters by name. The registry of the
built-in formats has a diagram, JSON, YAML and the file statistics.
-/

namespace TreeSketch

/-- Why a tree cannot be written. -/
inductive FormatError where
  /-- There is no format of this name. -/
  | notFound (name : String)
  /-- The format cannot hold the tree. -/
  | failed (reason : String)
deriving Repr, DecidableEq

namespace FormatError

/-- The text of the error. -/
def message : FormatError → String
  | notFound name => "Format '" ++ name ++ "' not found"
  | failed reason => "Serialization error: " ++ reason

end FormatError

/-- A format for trees. -/
structure Formatter where
  name : String
  description : String
  write : Node → Except FormatError String

namespace Formatter

/-- The tree as a diagram. -/
def diagram : Formatter :=
  ⟨"diagram", "ASCII tree diagram", fun tree => .ok tree.diagram⟩

/-- The tree as JSON. -/
def json : Formatter :=
  ⟨"json", "Nested JSON objects", fun tree => .ok tree.toJson.render⟩

/-- The tree as YAML. -/
def yaml : Formatter :=
  ⟨"yaml", "Nested YAML mappings", fun tree => .ok tree.yaml⟩

/-- The file statistics of the tree. -/
def stats : Formatter :=
  ⟨"stats", "Directory and file counts, files by extension", fun tree => .ok tree.summary⟩

end Formatter

/-- Formatters of different names. -/
structure Registry where
  formatters : List Formatter

namespace Registry

/-- The registry without formats. -/
def empty : Registry :=
  ⟨[]⟩

/-- Adds a format, in place of one of the same name. -/
def register (registry : Registry) (formatter : Formatter) : Registry :=
  ⟨formatter :: registry.formatters.filter (·.name ≠ formatter.name)⟩

/-- The registry of the built-in formats. -/
def defaults : Registry :=
  [Formatter.diagram, .json, .yaml, .stats].foldl register empty

/-- The format of a name. -/
def get? (registry : Registry) (name : String) : Option Formatter :=
  registry.formatters.find? (·.name = name)

/-- There is a format of the name. -/
def has (registry : Registry) (name : String) : Bool :=
  (registry.get? name).isSome

/-- The names of the formats in alphabetical order. -/
def names (registry : Registry) : List String :=
  (registry.formatters.map (·.name)).mergeSort fun a b => a ≤ b

/-- Writes a tree in the format of a name. -/
def write (registry : Registry) (name : String) (tree : Node) : Except FormatError String :=
  match registry.get? name with
  | some formatter => formatter.write tree
  | none => .error (.notFound name)

end Registry

end TreeSketch
