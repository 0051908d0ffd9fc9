/-
  Main - the command line program.

  The files that a session may read are read first, then the session is
  prepared, and a song that is to be recorded is written to its file.
-/
import PaulaReplay.Console.Session

namespace PaulaReplay.Console

/-- The number of a system error, which may come with its sign turned. -/
def positive (code : UInt32) : UInt32 := if code < 0x80000000 then code else 0 - code

/-- The number and the text of a system error. -/
def codeOf : IO.Error → UInt32 × String
  | .alreadyExists _ code text | .invalidArgument _ code text | .permissionDenied _ code text
  | .resourceExhausted _ code text | .inappropriateType _ code text | .noSuchThing _ code text
  | .noFileOrDirectory _ code text | .interrupted _ code text
  | .otherError code text | .resourceBusy code text | .resourceVanished code text
  | .unsupportedOperation code text | .hardwareFault code text
  | .unsatisfiedConstraints code text | .illegalOperation code text | .protocolError code text
  | .timeExpired code text => (positive code, text)
  | .unexpectedEof => (0, "unexpected end of file")
  | .userError text => (0, text)

/-- A system error as the reason a file cannot be used. -/
def reasonOf (e : IO.Error) : FileError :=
  let (code, text) := codeOf e
  match code.toNat with
  | 2 => .notFound
  | 19 => .noDevice
  | 20 => .notDirectory
  | 21 => .isDirectory
  | 36 => .nameTooLong
  | _ => .other text code

/-- What the system has at a path. -/
def lookUp (path : String) : IO (Except FileError Node) := do
  try
    return .ok (.file (← IO.FS.readBinFile path))
  catch e =>
    match reasonOf e with
    | .isDirectory => return .ok .directory
    | reason => return .error reason

/-- Write a song that is recorded, and show its progress. -/
def record (text : String) (r : Recording) : IO Unit := do
  IO.print text
  try
    IO.FS.writeBinFile r.output ByteArray.empty
  catch e =>
    IO.print (Failure.line (.tune (.file (reasonOf e))))
    return
  let r := r.run
  IO.FS.writeBinFile r.output r.file
  IO.print r.report

/-- Run a session. -/
def session (args : List String) : IO UInt32 := do
  let found ← (wanted args).mapM fun path => return (path, ← lookUp path)
  match prepare (fun path => (found.lookup path).getD (.error .notFound)) args with
  | .shows text => IO.print text; return 0
  | .breaksOff => return brokenStatus
  | .records text r => record text r; return 0

end PaulaReplay.Console

def main (args : List String) : IO UInt32 := PaulaReplay.Console.session args
