import TreeSketch.Dialect
import TreeSketch.Export.Listing
import TreeSketch.Export.Registry

/-!
# What to show of a source

A `Spec` such as `tree-json` says which stage of reading a source is shown, its tokens or its tree, and in
which format. Not every format fits both stages.
-/

namespace TreeSketch

/-- A stage of reading a source. -/
inductive Stage where
  | token
  | tree
deriving Repr, DecidableEq

/-- A format that a stage is shown in. -/
inductive OutputFormat where
  | simple
  | json
  | diagram
  | yaml
  | stats
deriving Repr, DecidableEq

namespace Stage

/-- The word for the stage. -/
def label : Stage → String
  | token => "token"
  | tree => "tree"

/-- The stage of a word. -/
def ofLabel? (word : String) : Option Stage :=
  [token, tree].find? (·.label = word)

end Stage

namespace OutputFormat

/-- The word for the format. -/
def label : OutputFormat → String
  | simple => "simple"
  | json => "json"
  | diagram => "diagram"
  | yaml => "yaml"
  | stats => "stats"

/-- The format of a word. -/
def ofLabel? (word : String) : Option OutputFormat :=
  [simple, json, diagram, yaml, stats].find? (·.label = word)

/-- The format can show the stage. -/
def fits : OutputFormat → Stage → Bool
  | simple, .token | json, .token => true
  | simple, .tree => false
  | _, .tree => true
  | _, .token => false

end OutputFormat

/-- What to show of a source. -/
structure Spec where
  stage : Stage
  format : OutputFormat
deriving Repr, DecidableEq

/-- Why a text is no `Spec`. -/
inductive SpecError where
  /-- The text has no dash. -/
  | noDash (text : String)
  /-- There is no stage of this word. -/
  | unknownStage (word : String)
  /-- There is no format of this word. -/
  | unknownFormat (word : String)
  /-- The format does not fit the stage. -/
  | unfitFormat (format : OutputFormat) (stage : Stage)
deriving Repr, DecidableEq

namespace SpecError

/-- The text of the error. -/
def message : SpecError → String
  | noDash text => "Invalid format: " ++ text
  | unknownStage word => "Invalid stage: " ++ word
  | unknownFormat word => "Invalid format type: " ++ word
  | unfitFormat format .token =>
    "Invalid format type: Format '" ++ format.label ++ "' only works with the tree stage"
  | unfitFormat format .tree =>
    "Invalid format type: Format '" ++ format.label ++ "' only works with the token stage"

end SpecError

namespace Spec

/-- The text of a specification. -/
def display (spec : Spec) : String :=
  spec.stage.label ++ "-" ++ spec.format.label

/-- Reads a specification: a stage, a dash and a format that fits the stage. -/
def parse (text : String) : Except SpecError Spec :=
  let cs := text.toList
  let stageWord := String.ofList (cs.takeWhile (· ≠ '-'))
  match cs.dropWhile (· ≠ '-') with
  | [] => .error (.noDash text)
  | _ :: formatChars =>
    let formatWord := String.ofList formatChars
    match Stage.ofLabel? stageWord with
    | none => .error (.unknownStage stageWord)
    | some stage =>
      match OutputFormat.ofLabel? formatWord with
      | none => .error (.unknownFormat formatWord)
      | some format =>
        if format.fits stage then .ok ⟨stage, format⟩ else .error (.unfitFormat format stage)

/-- Every specification, in the order in which they are offered. -/
def all : List Spec :=
  [⟨.token, .simple⟩, ⟨.token, .json⟩, ⟨.tree, .diagram⟩, ⟨.tree, .json⟩, ⟨.tree, .yaml⟩,
    ⟨.tree, .stats⟩]

/-- Shows a source: the faults of the source come first, and each built-in format can hold every tree. -/
def present (spec : Spec) (dialect : Dialect) (source : String) :
    Except SourceError (Except FormatError String) :=
  match spec.stage with
  | .token => do
    let tokens ← dialect.tokenize source
    match spec.format with
    | .json => return .ok (Json.array (tokens.map Token.toJson)).render
    | _ => return .ok (Token.listing source tokens)
  | .tree => do
    let tree ← dialect.parse source
    return Registry.defaults.write spec.format.label tree

end Spec

end TreeSketch
