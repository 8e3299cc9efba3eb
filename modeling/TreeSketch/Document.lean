import TreeSketch.Export.Spec
import TreeSketch.Fence
import TreeSketch.Files.Access

/-!
# Sources from files

Tree text comes from files and from arguments. A diagram file may be a longer document with fenced blocks;
an argument is either declarative text itself or the path of a template file that holds it
(`Template.resolve`). `Spec.presentFile` shows what a file holds.
-/

namespace TreeSketch

/-- Why a file gives no source. -/
inductive DocumentError where
  | notFound (path : String)
  | notAFile (path : String)
  | emptyTemplate (path : String)
  | unreadable (path : String) (cause : IoError)
deriving Repr, DecidableEq

namespace DocumentError

/-- The text of the error. -/
def message : DocumentError → String
  | notFound path => "File not found: " ++ path
  | notAFile path => "Path exists but is not a file: " ++ path
  | emptyTemplate path => "Template file is empty: " ++ path
  | unreadable path cause => "Cannot read " ++ path ++ ": " ++ cause.message

/-- Why reading the file at a path has failed. -/
def ofRead (path : String) : IoError → DocumentError
  | .notFound => notFound path
  | cause => unreadable path cause

end DocumentError

/-- Declarative text, and the template that it stands in, if it stands in one. -/
inductive Template where
  | inline (text : String)
  | file (path text : String)
deriving Repr, DecidableEq

namespace Template

/-- The declarative text. -/
def text : Template → String
  | inline text => text
  | file _ text => text

/-- The argument has the form of a path: without operators and blanks, and with a separator, or a dot
unless it starts like a hint. -/
def looksLikePath (argument : String) : Bool :=
  let cs := argument.toList
  let isHint := cs.take 2 = ['d', '('] || cs.take 2 = ['f', '(']
  !cs.contains '>' && !cs.contains '|' && !cs.any Text.isBlank &&
    (cs.contains '/' || cs.contains '\\' || (cs.contains '.' && !isHint))

section

variable {m : Type → Type} [Monad m] [FileAccess m]

/-- The declarative text that an argument stands for. An argument that has the form of a path, or names
something that exists, is the path of a template. -/
def resolve (argument : String) : m (Except DocumentError Template) := do
  match ← FileAccess.status argument with
  | .absent =>
    return if looksLikePath argument then .error (.notFound argument) else .ok (.inline argument)
  | .directory => return .error (.notAFile argument)
  | .file =>
    match ← readText argument with
    | .error cause => return .error (.ofRead argument cause)
    | .ok content =>
      let text := String.ofList (Text.trim content.toList)
      return if text = "" then .error (.emptyTemplate argument) else .ok (.file argument text)

end

end Template

section

variable {m : Type → Type} [Monad m] [FileAccess m]

/-- The diagrams in a file. -/
def readDiagrams (path : String) : m (Except DocumentError String) := do
  match ← readText path with
  | .error cause => return .error (.ofRead path cause)
  | .ok content => return .ok (Fence.extract content)

end

/-- Why nothing can be shown of a source. -/
inductive PresentError where
  | document (error : DocumentError)
  | source (error : SourceError)
  | format (error : FormatError)
deriving Repr, DecidableEq

namespace PresentError

/-- The text of the error. -/
def message : PresentError → String
  | document error => error.message
  | source error => error.message
  | format error => "Invalid format type: " ++ error.message

end PresentError

namespace Spec

/-- Shows a source. -/
def presentText (spec : Spec) (dialect : Dialect) (source : String) : Except PresentError String :=
  match spec.present dialect source with
  | .error error => .error (.source error)
  | .ok (.error error) => .error (.format error)
  | .ok (.ok shown) => .ok shown

section

variable {m : Type → Type} [Monad m] [FileAccess m]

/-- Shows what a file holds; of a diagram file, its fenced blocks. -/
def presentFile (spec : Spec) (dialect : Dialect) (path : String) :
    m (Except PresentError String) := do
  match ← readText path with
  | .error cause => return .error (.document (.unreadable path cause))
  | .ok content =>
    let source := if dialect = .diagram then Fence.extract content else content
    return spec.presentText dialect source

end

end Spec

end TreeSketch
