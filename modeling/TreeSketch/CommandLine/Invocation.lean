import TreeSketch.CommandLine.Switch
import TreeSketch.Settings.Loader

/-!
# What a command line asks for

`Request.parse` reads the arguments of the program. They ask for one of its four commands, with the
settings that options pin, or for help, or do not make sense.
-/

namespace TreeSketch.CommandLine

/-- The options that commands share which create trees. -/
structure CreationFlags where
  output : Option String
  noFiles : Bool
  dryRun : Bool
  /-- Trees are shown first, and created only if that is confirmed. -/
  preview : Bool
deriving Repr, DecidableEq

/-- A command with its options and operands. -/
inductive Command where
  /-- Creates the trees of diagrams in a file. -/
  | createFromFile (path : String) (flags : CreationFlags) (allTrees : Bool)
  /-- Creates the tree of declarative text, or only shows it. -/
  | createFromText (argument : String) (flags : CreationFlags) (toDiagram : Bool)
  /-- Shows the tokens or the tree of a file or a text. -/
  | inspect (input : String) (dialect : Option Dialect) (format : String)
  /-- Lists the formats in which sources are shown. -/
  | listFormats
deriving Repr, DecidableEq

/-- A command, and the settings file that is named for it. -/
structure Invocation where
  config : Option String
  command : Command
deriving Repr, DecidableEq

/-- What arguments ask for. -/
inductive Request where
  | perform (invocation : Invocation)
  | halt (reason : Halt)
deriving Repr, DecidableEq

/-! ## Levels -/

/-- The options that are given before or after the name of a command. -/
def sharedSwitches : List Switch :=
  [.help, .config, .verbose]

/-- The options of commands that create trees. -/
def creationSwitches : List Switch :=
  [.output, .noFiles, .dryRun, .preview]

/-- The program itself. -/
def Level.program : Level :=
  ⟨.version :: sharedSwitches, none, true⟩

/-- The name of a command. -/
inductive CommandName where
  | fromFile
  | fromText
  | inspect
  | listFormats
deriving Repr, DecidableEq

namespace CommandName

/-- Every command. -/
def all : List CommandName :=
  [fromFile, fromText, inspect, listFormats]

/-- The name as an argument. -/
def label : CommandName → String
  | fromFile => "from-file"
  | fromText => "from-syntax"
  | inspect => "inspect"
  | listFormats => "list-formats"

/-- The command of a name. -/
def ofLabel? (name : String) : Option CommandName :=
  all.find? (·.label = name)

/-- What may be given behind the name of the command. -/
def level : CommandName → Level
  | fromFile => ⟨.allTrees :: creationSwitches ++ sharedSwitches, some (· ≠ ""), false⟩
  | fromText => ⟨.toDiagram :: creationSwitches ++ sharedSwitches, some fun _ => true, false⟩
  | inspect => ⟨.dialect :: .format :: sharedSwitches, some fun _ => true, false⟩
  | listFormats => ⟨sharedSwitches, none, false⟩

end CommandName

/-! ## Commands -/

/-- The format in which sources are shown if none is given. -/
def usualFormat : String := "tree-diagram"

/-- The options of a command that creates trees. -/
def CreationFlags.ofReading (reading : Reading) : CreationFlags :=
  ⟨reading.value? .output, reading.has .noFiles, reading.has .dryRun, reading.has .preview⟩

/-- The command of what is given behind its name; every command but the last needs its operand. -/
def Command.ofReading (name : CommandName) (reading : Reading) : Option Command :=
  match name with
  | .fromFile => reading.operand.map fun path =>
      createFromFile path (.ofReading reading) (reading.has .allTrees)
  | .fromText => reading.operand.map fun argument =>
      createFromText argument (.ofReading reading) (reading.has .toDiagram)
  | .inspect => reading.operand.map fun input =>
      inspect input ((reading.value? .dialect).bind Dialect.ofName?)
        ((reading.value? .format).getD usualFormat)
  | .listFormats => some listFormats

/-- The request for help on commands. At most one command is named. -/
def helpRequest : List String → Halt
  | [] => .help
  | [name] => if name = "help" || (CommandName.ofLabel? name).isSome then .help else .misuse
  | _ => .misuse

/-- The invocation that arguments ask for. A settings file that is named behind the command counts before
one that is named in front of it. -/
def Invocation.parse (arguments : List String) : Except Halt Invocation := do
  let outer ← Level.program.read arguments
  match outer.command with
  | none => .error .misuse
  | some ("help", names) => .error (helpRequest names)
  | some (label, arguments) =>
    match CommandName.ofLabel? label with
    | none => .error .misuse
    | some name =>
      let inner ← name.level.read arguments
      match Command.ofReading name inner with
      | none => .error .misuse
      | some command => .ok ⟨(inner.value? .config).or (outer.value? .config), command⟩

/-- What arguments ask for. -/
def Request.parse (arguments : List String) : Request :=
  match Invocation.parse arguments with
  | .ok invocation => .perform invocation
  | .error reason => .halt reason

/-! ## Settings -/

/-- The settings file that is read if it is there. -/
def projectFile : String := "treemancer.toml"

/-- The pinned setting of a field of a section, if it is wanted. -/
def pinIf (wanted : Bool) (key field : String) (value : Scalar) : List Pin :=
  if wanted then [⟨[.name key, .name field], value⟩] else []

/-- The settings that the options of a command pin. -/
def CreationFlags.pins (flags : CreationFlags) : List Pin :=
  pinIf flags.output.isSome "create" "output" (.string (flags.output.getD "")) ++
    pinIf flags.noFiles "create" "create_files" (.boolean false) ++
    pinIf flags.dryRun "create" "dry_run" (.boolean true)

/-- The settings that a command pins. -/
def Command.pins : Command → List Pin
  | createFromFile _ flags allTrees =>
    flags.pins ++ pinIf allTrees "diagram" "all_trees" (.boolean true)
  | createFromText _ flags _ => flags.pins
  | inspect _ _ _ | listFormats => []

/-- Where the settings come from: the file of the project, the file that is named, and the options of the
command. -/
def Invocation.loader (invocation : Invocation) : Loader :=
  let project := Loader.empty.withOptionalFile projectFile
  let files := match invocation.config with
    | some path => project.withFile path
    | none => project
  invocation.command.pins.foldl (fun loader pin => loader.pin pin.path pin.value) files

end TreeSketch.CommandLine
