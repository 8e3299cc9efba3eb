import TreeSketch.CommandLine.Run

/-!
# The program

The command line on the files of the machine and the standard streams.
-/

namespace TreeSketch

namespace IoError

/-- The number that the machine gives an error. -/
private def codeOf : IO.Error → UInt32
  | .alreadyExists _ code _ => code
  | .otherError code _ => code
  | .resourceBusy code _ => code
  | .resourceVanished code _ => code
  | .unsupportedOperation code _ => code
  | .hardwareFault code _ => code
  | .unsatisfiedConstraints code _ => code
  | .illegalOperation code _ => code
  | .protocolError code _ => code
  | .timeExpired code _ => code
  | .interrupted _ code _ => code
  | .noFileOrDirectory _ code _ => code
  | .invalidArgument _ code _ => code
  | .permissionDenied _ code _ => code
  | .resourceExhausted _ code _ => code
  | .inappropriateType _ code _ => code
  | .noSuchThing _ code _ => code
  | .unexpectedEof => 0
  | .userError _ => 0

/-- The error that an operation of the machine has ended with. -/
def ofMachine (error : IO.Error) : IoError :=
  match (codeOf error).toNat with
  | 2 => notFound
  | 17 => alreadyExists
  | 20 => notADirectory
  | 21 => isADirectory
  | 36 => nameTooLong
  | _ => other (toString error)

end IoError

/-- Does something with a path that the machine can take. -/
private def withPath {α : Type} (path : String) (action : IO α) : IO (Except IoError α) := do
  if path.toList.contains '\x00' then return .error .zeroInPath
  else
    try
      return .ok (← action)
    catch error =>
      return .error (IoError.ofMachine error)

/-- Reads one byte of what stands at a path, which fails for a directory. -/
private def probe (path : String) : IO (Except IoError Unit) :=
  withPath path do
    let handle ← IO.FS.Handle.mk path .read
    let _ ← handle.read 1

instance : FileAccess IO where
  status path := do
    match ← probe path with
    | .ok () => return .file
    | .error .isADirectory => return .directory
    | .error _ => return .absent
  read path := withPath path (IO.FS.readBinFile path)
  makeDirectory path := withPath path (IO.FS.createDir path)
  touch path := withPath path do
    let _ ← IO.FS.Handle.mk path .append

instance : Console IO where
  tell text := do
    IO.print text
    (← IO.getStdout).flush
  complain text := IO.eprint text
  answer := do
    try
      return some (← (← IO.getStdin).getLine)
    catch _ =>
      return none

end TreeSketch

/-- Runs the program with its arguments. -/
def main (arguments : List String) : IO UInt32 := do
  let status ← TreeSketch.CommandLine.run arguments
  return status.code
