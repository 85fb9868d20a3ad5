import Paging.CommandLine.Run

/-!
# The program

Runs the command line on the file system. A file is read whole when it is opened and written whole
when it has changed.
-/

namespace Paging

def FileFailure.ofError : IO.Error → FileFailure
  | .noFileOrDirectory _ code _ | .permissionDenied _ code _ | .inappropriateType _ code _
  | .invalidArgument _ code _ | .resourceExhausted _ code _ | .noSuchThing _ code _
  | .otherError code _ =>
    (ofCode? code.toNat).getD .inputOutput
  | _ => .inputOutput

namespace CommandLine

def attempt {α : Type} (access : IO α) : IO (Except FileFailure α) := do
  match ← access.toBaseIO with
  | .ok a => return .ok a
  | .error e => return .error (.ofError e)

/-- The device at a path. One that is not known is taken for a stream. -/
def deviceAt? (path : String) : IO (Option Device) := do
  match ← attempt ((← IO.currentDir) / path).metadata with
  | .error _ => return none
  | .ok data =>
    match data.type with
    | .other =>
      match ← attempt (IO.FS.realPath path) with
      | .ok place => return some ((Device.atPath? place.toString).getD (.stream .output))
      | .error _ => return some (.stream .output)
    | _ => return none

/-- Opens a file for reading, or for writing too. A directory opens for reading and has no bytes. -/
def openFile (path : String) (writable : Bool) : IO (Except FileFailure Memory) := do
  match ← attempt (IO.FS.Handle.mk path (if writable then .readWrite else .read)) with
  | .error why => return .error why
  | .ok handle =>
    match ← deviceAt? path with
    | some device => return device.openMemory writable
    | none =>
      match ← attempt handle.readBinToEnd with
      | .ok bytes => return .ok ⟨.file (if writable then .readWrite else .readOnly), bytes.data⟩
      | .error .isDirectory => return .ok ⟨.file .directory, #[]⟩
      | .error why => return .error why

def saveFile (path : String) (bytes : Array UInt8) : IO (Except FileFailure Unit) :=
  attempt <| IO.FS.withFile path .write fun handle => do
    handle.write ⟨bytes⟩
    handle.flush

def fileSystem : FileAccess IO where
  openMemory := openFile
  keep path bytes := IO.FS.writeBinFile path ⟨bytes⟩
  save := saveFile

end CommandLine

end Paging

def main (arguments : List String) : IO UInt32 := do
  let outcome ← Paging.CommandLine.run Paging.CommandLine.fileSystem arguments
  (← IO.getStderr).putStr outcome.stderr
  (← IO.getStdout).putStr outcome.stdout
  return outcome.exit.toUInt32
