import TreeSketch.CommandLine.Console
import TreeSketch.CommandLine.Invocation
import TreeSketch.Document

/-!
# Running the program

`run` does what the arguments ask for, in any monad that has access to files and to a user. The settings are
read before the command is looked at. Commands that only show something add no files; the others add files
only after everything that they read has been read without fault and, with a preview, only when the user
agrees.
-/

namespace TreeSketch.CommandLine

/-- How a run has ended. -/
inductive ExitStatus where
  | success
  /-- Something could not be read or created. -/
  | failure
  /-- The arguments do not say what to do. -/
  | misuse
deriving Repr, DecidableEq

/-- The number that the run ends with. -/
def ExitStatus.code : ExitStatus → UInt32
  | success => 0
  | failure => 1
  | misuse => 2

/-! ## Texts -/

/-- The name and the version of the program. -/
def versionText : String := "treemancer 0.1.0\n"

/-- How the program is used. -/
def usageText : String :=
  "Create directory structures from declarative syntax and tree diagrams\n\n" ++
  "Usage: treemancer [-c FILE] [-v] COMMAND\n\n" ++
  "Commands:\n" ++
  "  from-file PATH [-o DIR] [--no-files] [--dry-run] [--preview] [--all-trees]\n" ++
  "  from-syntax SYNTAX [-o DIR] [--no-files] [--dry-run] [--preview] [--to-diagram]\n" ++
  "  inspect INPUT [-s SYNTAX] [-f FORMAT]\n" ++
  "  list-formats\n"

/-- How declarative text is written. -/
def declarativeHelp : String :=
  "Syntax help:\n" ++
  "- Use > to go deeper: project > src > main.py\n" ++
  "- Use spaces to create siblings: app > file1.py file2.py\n" ++
  "- Use | to go back up: root > sub > file | another_file\n" ++
  "- Use d(name) for directories: d(mydir)\n" ++
  "- Use f(name) for files: f(myfile.txt)\n"

/-- The formats in which sources are shown. -/
def formatList : String :=
  "Available formats:\n\n" ++ String.join (Spec.all.map fun spec => "  " ++ spec.display ++ "\n")

/-- Texts, each below the number of its tree. -/
def numbered (texts : List String) : String :=
  String.join (texts.mapIdx fun i text => "\nTree " ++ toString (i + 1) ++ ":\n" ++ text)

/-- What `count` gives for several reports together. -/
def total (count : CreationReport → Nat) (reports : List CreationReport) : Nat :=
  reports.foldr (fun report sum => count report + sum) 0

/-- The sums over several reports. -/
def overall (reports : List CreationReport) : String :=
  let failures := total (·.failures.length) reports
  "\nOverall summary:\n" ++
    "  Trees: " ++ toString reports.length ++ "\n" ++
    "  Total directories: " ++ toString (total (·.created .directory) reports) ++ "\n" ++
    "  Total files: " ++ toString (total (·.created .file) reports) ++ "\n" ++
    (if 0 < failures then "  Total errors: " ++ toString failures ++ "\n" else "")

/-- The reports on trees as text. -/
def reportText (reports : List CreationReport) : String :=
  let texts := reports.map CreationReport.display
  if 1 < reports.length then numbered texts ++ overall reports else String.join texts

/-- The answer of a user agrees to what was asked. -/
def isAgreement (line : String) : Bool :=
  let word := Text.lowercase (String.ofList (Text.trim line.toList))
  word = "y" || word = "yes"

/-- The language that a file is taken to be written in: templates are declarative. -/
def dialectOfFile (path : String) : Dialect :=
  if Path.extension? path = some "tree" then .declarative else .diagram

/-! ## Commands -/

section

variable {m : Type → Type} [Monad m] [FileAccess m] [Console m]

/-- Ends the run with a complaint. -/
def fail (text : String) : m ExitStatus := do
  Console.complain text
  return .failure

/-- Ends the run with an error's text. -/
def failWith (message : String) : m ExitStatus :=
  fail ("Error: " ++ message ++ "\n")

/-- Creates trees and reports on them. One tree is created in the output directory itself, several in
numbered directories below it. -/
def createTrees (settings : Settings) (trees : List Node) : m ExitStatus := do
  let reports ←
    match trees with
    | [tree] => do
      let report ← settings.create.create settings.output tree
      pure [report]
    | _ => settings.create.createMany settings.output trees
  Console.tell (reportText reports)
  return if reports.all CreationReport.succeeded then .success else .failure

/-- Shows a preview, if there is one, and creates trees unless the user objects to it. -/
def createConfirmed (settings : Settings) (preview : Option String) (trees : List Node) :
    m ExitStatus := do
  match preview with
  | none => createTrees settings trees
  | some shown =>
    Console.tell (shown ++ "\nProceed with creation? [y/N] ")
    let answer ← Console.answer
    if answer.any isAgreement then createTrees settings trees
    else
      Console.tell "Cancelled\n"
      return .success

/-- The trees that are wanted of the diagrams in a text. -/
def wantedTrees (settings : Settings) (text : String) : Except ParseError (List Node) :=
  if settings.allTrees then Diagram.parseAll text
  else (Diagram.parse text).map fun tree => [tree]

/-- Creates the trees of diagrams in a file. -/
def createFromFile (settings : Settings) (path : String) (preview : Bool) : m ExitStatus := do
  match ← readDiagrams path with
  | .error error => failWith error.message
  | .ok text =>
    match wantedTrees settings text with
    | .error error => failWith error.message
    | .ok trees =>
      Console.tell ("Found " ++ toString trees.length ++ " tree(s) in " ++ path ++ "\n")
      let shown := if preview then some (numbered (trees.map Node.diagram)) else none
      createConfirmed settings shown trees

/-- Creates the tree of declarative text, or only shows it. -/
def createFromText (settings : Settings) (argument : String) (preview toDiagram : Bool) :
    m ExitStatus := do
  match ← Template.resolve argument with
  | .error error => failWith error.message
  | .ok template =>
    match Declarative.parse template.text with
    | .error error => fail ("Syntax error: " ++ error.message ++ "\n\n" ++ declarativeHelp)
    | .ok tree =>
      if toDiagram then
        Console.tell tree.diagram
        return .success
      else
        let shown := if preview then some ("Tree preview:\n" ++ tree.diagram) else none
        createConfirmed settings shown [tree]

/-- Shows the tokens or the tree of a file or a text. -/
def inspect (input : String) (dialect : Option Dialect) (format : String) : m ExitStatus := do
  match Spec.parse format with
  | .error error =>
    fail ("Error: " ++ error.message ++
      "\nRun `treemancer list-formats` to see the available formats\n")
  | .ok spec =>
    let shown ←
      if ← isFile input then spec.presentFile (dialect.getD (dialectOfFile input)) input
      else pure (spec.presentText (dialect.getD (Dialect.detect input)) input)
    match shown with
    | .error error => failWith error.message
    | .ok text =>
      Console.tell text
      return .success

/-- Does what a command asks for, with the settings that hold for it. -/
def Command.run (settings : Settings) : Command → m ExitStatus
  | .createFromFile path flags _ => CommandLine.createFromFile settings path flags.preview
  | .createFromText argument flags toDiagram =>
    CommandLine.createFromText settings argument flags.preview toDiagram
  | .inspect input dialect format => CommandLine.inspect input dialect format
  | .listFormats => do
    Console.tell formatList
    return .success

/-- Reads the settings and does what the command asks for. -/
def Invocation.run (invocation : Invocation) : m ExitStatus := do
  match ← invocation.loader.load with
  | .error error => fail ("Error loading configuration: " ++ error.message ++ "\n")
  | .ok settings => invocation.command.run settings

/-- Does what the arguments of the program ask for. -/
def run (arguments : List String) : m ExitStatus := do
  match Request.parse arguments with
  | .perform invocation => invocation.run
  | .halt .version => do
    Console.tell versionText
    return .success
  | .halt .help => do
    Console.tell usageText
    return .success
  | .halt .misuse => do
    Console.complain usageText
    return .misuse

end

end TreeSketch.CommandLine
