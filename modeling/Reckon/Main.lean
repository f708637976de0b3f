import Reckon.Program

/-!
# The command line program

Reads what the program needs, runs it, and writes its answers.
-/

namespace Reckon.Main

/-- A fault of the system, in its own words. -/
def faultOf (e : IO.Error) : Fault :=
  let told (kind : FaultKind) (code : UInt32) (details : String) : Fault :=
    ⟨kind, some (details ++ " (os error " ++ Decimal.ofNat code.toNat ++ ")")⟩
  match e with
  | .noFileOrDirectory _ code details => told .notFound code details
  | .permissionDenied _ code details => told .permissionDenied code details
  | .inappropriateType _ code details => told .isDirectory code details
  | .invalidArgument _ code details => told .other code details
  | .otherError code details => told .other code details
  | _ => ⟨.other, some (toString e)⟩

/-- Reads a stream to its end, or to its first fault. -/
partial def readAll (stream : IO.FS.Stream) (soFar : ByteArray) : IO Source := do
  match ← (stream.read 65536).toBaseIO with
  | .error e => return Source.ofBytes soFar.toList ++ [.fault (faultOf e)]
  | .ok chunk =>
    if chunk.isEmpty then return .ofBytes soFar.toList
    else readAll stream (soFar ++ chunk)

def openFile (path : String) : IO (Except Fault Source) := do
  match ← (IO.FS.Handle.mk path .read).toBaseIO with
  | .error e => return .error (faultOf e)
  | .ok handle => return .ok (← readAll (.ofHandle handle) .empty)

/-- The file that the arguments name, if they name one. -/
def inputFile? (arguments : List String) : Option (Option String) :=
  match CommandLine.Request.ofArguments arguments with
  | .ok (.evaluate options) => some options.input
  | _ => none

end Reckon.Main

def main (arguments : List String) : IO UInt32 := do
  let input := Reckon.Main.inputFile? arguments
  let file ← match input with
    | some (some path) => Reckon.Main.openFile path
    | _ => pure (.ok [])
  let stdin ← match input with
    | some none => Reckon.Main.readAll (← IO.getStdin) .empty
    | _ => pure []
  let answers := Reckon.Program.run arguments stdin fun _ => file
  (← IO.getStdout).write answers.stdout
  (← IO.getStderr).write answers.stderr
  return answers.code.toUInt32
