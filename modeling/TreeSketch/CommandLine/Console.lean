import TreeSketch.Files.Access

/-!
# Talking to the user

`Console m` says that actions of the monad `m` can write to the user and read an answer. A `Session` is all
that such actions can read and change: a file system, what the user has typed, and what has been written.
-/

namespace TreeSketch

/-- Actions of `m` can talk to the user. -/
class Console (m : Type → Type) where
  /-- Writes a text to the output. -/
  tell : String → m Unit
  /-- Writes a text where errors go. -/
  complain : String → m Unit
  /-- The next line that the user types, unless it is no text. -/
  answer : m (Option String)

/-- A file system and the conversation with a user. -/
structure Session where
  files : FileSystem
  /-- The bytes that the user has typed and nobody has read. -/
  input : List UInt8
  output : String
  errors : String

namespace Session

/-- The start of a conversation. -/
def start (files : FileSystem) (input : String) : Session :=
  ⟨files, input.toUTF8.toList, "", ""⟩

/-- The byte belongs to a line and does not end it. -/
def isInLine (byte : UInt8) : Bool :=
  byte ≠ '\n'.toUInt8

/-- The next line of the input, unless it is no text. -/
def nextLine (session : Session) : Option String :=
  String.fromUTF8? ⟨(session.input.takeWhile isInLine).toArray⟩

/-- Lets an action on a file system act on that of a session. -/
def onFiles {α : Type} (action : StateM FileSystem α) : StateM Session α := fun session =>
  let (answer, files) := action session.files
  (answer, { session with files := files })

end Session

instance : FileAccess (StateM Session) where
  status path := Session.onFiles (FileAccess.status path)
  read path := Session.onFiles (FileAccess.read path)
  makeDirectory path := Session.onFiles (FileAccess.makeDirectory path)
  touch path := Session.onFiles (FileAccess.touch path)

instance : Console (StateM Session) where
  tell text := fun session => ((), { session with output := session.output ++ text })
  complain text := fun session => ((), { session with errors := session.errors ++ text })
  answer := fun session =>
    (session.nextLine, { session with input := (session.input.dropWhile Session.isInLine).tail })

end TreeSketch
