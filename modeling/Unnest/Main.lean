import Unnest.Command.Run

/-!
# The command line

The command with the files of the system as its outside.
-/

namespace Unnest

/-- The string of a text, empty if the text is not UTF-8. -/
def Text.toString (s : Text) : String := (String.fromUTF8? (ByteArray.mk s.toArray)).getD ""

/-- The words of the system for what it cannot do. -/
def systemReason (e : IO.Error) : String :=
  match e with
  | .inappropriateType _ _ details | .permissionDenied _ _ details => details
  | .resourceExhausted _ _ details | .noSuchThing _ _ details | .invalidArgument _ _ details =>
    details
  | .noFileOrDirectory _ _ details | .alreadyExists _ _ details => details
  | e => toString e

def systemLook (path : String) : IO Sight := do
  try
    return if ← (← IO.FS.realPath path).isDir then .directory else .file
  catch
  | .noFileOrDirectory .. | .inappropriateType .. | .noSuchThing .. => return .missing
  | e => return .unknown (lit (systemReason e))

/-- Makes directories one after the other, unless they are there. -/
def makeSystemEach : List Stage → IO (Except Text Unit)
  | [] => return .ok ()
  | stage :: stages => do
    let path := stage.path.toString
    try
      unless (← systemLook path) == .directory do IO.FS.createDir path
      makeSystemEach stages
    catch e => return .error (lit (systemReason e))

/-- Makes a directory with the directories around it. -/
def makeSystemDirectories (dir : Text) : IO (Except Text Unit) := do
  match ← checkWay (fun path => systemLook path.toString) dir with
  | .error reason => return .error reason
  | .ok () => makeSystemEach (stages dir)

/-- Puts a file at a path whose directories are there. -/
def putSystemFile (path : String) (content : Text) : IO (Except FileError Unit) := do
  try
    IO.FS.writeBinFile path (ByteArray.mk content.toArray)
    return .ok ()
  catch _ => return .error (.cannotWrite (lit path))

/-- The files and the clock of the system. -/
def systemHost : Host IO where
  read path := do
    let name := path.toString
    if (← systemLook name) == .directory then return .error (.isDirectory path)
    try
      return .ok (← IO.FS.readBinFile name).data.toList
    catch _ => return .error (.cannotOpen path)
  write path content := do
    let dir := parentPath path
    if let .error reason ← makeSystemDirectories dir then return .error (.cannotCreate dir reason)
    putSystemFile path.toString content
  clock := IO.monoNanosNow

end Unnest

open Unnest in
/-- Runs the command with the arguments it was called with. -/
def main (args : List String) : IO UInt32 := do
  let program := (← IO.appPath).toString
  let env := (← IO.getEnv "NESTPORT_COLOR").map lit
  let result ← runCommand systemHost (some (lit program)) env (args.map lit)
  (← IO.getStdout).write (ByteArray.mk result.out.toArray)
  (← IO.getStderr).write (ByteArray.mk result.err.toArray)
  return result.exit.toUInt32
