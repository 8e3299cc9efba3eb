import TreeSketch.Dialect

/-!
# Options on a command line

The options of the program, and how arguments give them: by a name behind two dashes or a letter behind one,
with a value in the same argument or in the next. `scan` takes arguments apart into options and operands, and
`gather` collects them for one `Level` of the command line, either the program itself or one of its commands.
-/

namespace TreeSketch.CommandLine

/-- An option. -/
inductive Switch where
  | help
  | version
  | verbose
  | noFiles
  | dryRun
  | preview
  | allTrees
  | toDiagram
  | config
  | output
  | dialect
  | format
deriving Repr, DecidableEq

namespace Switch

/-- The name behind two dashes. -/
def name : Switch → String
  | help => "help"
  | version => "version"
  | verbose => "verbose"
  | noFiles => "no-files"
  | dryRun => "dry-run"
  | preview => "preview"
  | allTrees => "all-trees"
  | toDiagram => "to-diagram"
  | config => "config"
  | output => "output"
  | dialect => "syntax"
  | format => "format"

/-- The letter behind one dash, if there is one. -/
def letter? : Switch → Option Char
  | help => some 'h'
  | version => some 'V'
  | verbose => some 'v'
  | config => some 'c'
  | output => some 'o'
  | dialect => some 's'
  | format => some 'f'
  | _ => none

/-- The option has a value. -/
def hasValue : Switch → Bool
  | config | output | dialect | format => true
  | _ => false

/-- The option takes the text as its value. Paths are not empty, and languages have their names. -/
def accepts (switch : Switch) (value : String) : Bool :=
  match switch with
  | config | output => value ≠ ""
  | dialect => (Dialect.ofName? value).isSome
  | _ => true

end Switch

/-- The form of an argument. -/
inductive Form where
  /-- Two dashes alone: whatever follows is an operand. -/
  | separator
  /-- An option by its name, perhaps with a value behind an equals sign. -/
  | named (name : String) (value : Option String)
  /-- Options by their letters, or one with its value behind the letter. -/
  | lettered (letters : List Char)
  | operand
deriving Repr, DecidableEq

/-- The form of an argument. A dash alone is an operand. -/
def Form.ofArgument (argument : String) : Form :=
  match argument.toList with
  | '-' :: '-' :: [] => .separator
  | '-' :: '-' :: cs =>
    let name := String.ofList (cs.takeWhile (· ≠ '='))
    match cs.dropWhile (· ≠ '=') with
    | [] => .named name none
    | _ :: value => .named name (some (String.ofList value))
  | '-' :: c :: cs => .lettered (c :: cs)
  | _ => .operand

/-- What arguments give. -/
inductive Given where
  /-- An option; the value is empty if it has none. -/
  | switch (switch : Switch) (value : String)
  | operand (text : String)
  /-- A command, with the arguments behind its name. -/
  | command (name : String) (arguments : List String)
  /-- Something that is no option here, or an option without the value that it needs. -/
  | fault
deriving Repr, DecidableEq

/-- What an argument with an option's name gives, and the option if its value is still to come. -/
def readName (known : List Switch) (name : String) (value : Option String) :
    List Given × Option Switch :=
  match known.find? (·.name = name) with
  | none => ([.fault], none)
  | some switch =>
    match switch.hasValue, value with
    | true, some value => ([.switch switch value], none)
    | true, none => ([], some switch)
    | false, some _ => ([.fault], none)
    | false, none => ([.switch switch ""], none)

/-- What letters behind a dash give, and the last option if its value is still to come. -/
def readLetters (known : List Switch) : List Char → List Given × Option Switch
  | [] => ([], none)
  | c :: cs =>
    match known.find? (·.letter? = some c) with
    | none => ([.fault], none)
    | some switch =>
      if switch.hasValue then
        match cs with
        | [] => ([], some switch)
        | '=' :: value => ([.switch switch (String.ofList value)], none)
        | value => ([.switch switch (String.ofList value)], none)
      else
        let (given, waiting) := readLetters known cs
        (.switch switch "" :: given, waiting)

/-- What an argument of options gives, and the last option if its value is still to come. -/
def readOptions (known : List Switch) : Form → List Given × Option Switch
  | .named name value => readName known name value
  | .lettered letters => readLetters known letters
  | .separator | .operand => ([], none)

/-- What may be given at one place of the command line. -/
structure Level where
  switches : List Switch
  /-- Which texts are taken as the operand, if there is one. -/
  operand? : Option (String → Bool)
  /-- A command follows, and takes the arguments behind its name. -/
  takesCommand : Bool

/-- Takes arguments apart. The value of an option is in its argument or is the next argument, which is then
no option itself. -/
def scan (level : Level) : List String → List Given
  | [] => []
  | argument :: rest =>
    match Form.ofArgument argument with
    | .separator => rest.map .operand
    | .operand =>
      if level.takesCommand then [.command argument rest]
      else .operand argument :: scan level rest
    | form =>
      let (given, waiting) := readOptions level.switches form
      match waiting, rest with
      | none, rest => given ++ scan level rest
      | some _, [] => given ++ [.fault]
      | some switch, next :: rest =>
        if Form.ofArgument next = .operand then given ++ .switch switch next :: scan level rest
        else given ++ [.fault]

/-- Everything that is given at one level. -/
structure Reading where
  switches : List (Switch × String)
  operand : Option String
  command : Option (String × List String)
deriving Repr, DecidableEq

namespace Reading

/-- Nothing is given. -/
def empty : Reading :=
  ⟨[], none, none⟩

/-- The option is given. -/
def has (reading : Reading) (switch : Switch) : Bool :=
  (reading.switches.lookup switch).isSome

/-- The value of an option, if it is given. -/
def value? (reading : Reading) (switch : Switch) : Option String :=
  reading.switches.lookup switch

end Reading

/-- Why the arguments are not looked at any further. -/
inductive Halt where
  | help
  | version
  /-- The arguments do not say what to do. -/
  | misuse
deriving Repr, DecidableEq

/-- Collects what is given, until it is no use to go on. No option is given twice and no more operands are
given than there may be. -/
def gather (level : Level) (reading : Reading) : List Given → Except Halt Reading
  | [] => .ok reading
  | .fault :: _ => .error .misuse
  | .switch .help _ :: _ => .error .help
  | .switch .version _ :: _ => .error .version
  | .switch switch value :: rest =>
    if reading.has switch || !switch.accepts value then .error .misuse
    else gather level { reading with switches := (switch, value) :: reading.switches } rest
  | .operand text :: rest =>
    match level.operand?, reading.operand with
    | some accepts, none =>
      if accepts text then gather level { reading with operand := some text } rest
      else .error .misuse
    | _, _ => .error .misuse
  | .command name arguments :: rest =>
    gather level { reading with command := some (name, arguments) } rest

/-- Reads the arguments of a level. -/
def Level.read (level : Level) (arguments : List String) : Except Halt Reading :=
  gather level .empty (scan level arguments)

end TreeSketch.CommandLine
