import MipsAssembler.ByteString.LowerCase
import MipsAssembler.CommandLine.Run

/-!
# The assembler program

The assembler on the file system: it reads the command line and the source file, and writes what the
run gives. What is written is decided by the functions of `CommandLine.Run`.
-/

open MipsAssembler CommandLine ByteString

namespace MipsAssembler

namespace CommandLine

/-- The path that a byte string spells. -/
def pathOf (path : ByteString) : String := String.ofList (shown path)

/-- The fault behind a failure of the file system. -/
def faultOf (e : IO.Error) : FileFault :=
  match e with
  | .noFileOrDirectory .. => .missing
  | .inappropriateType _ _ "Is a directory" => .isDirectory
  | .inappropriateType _ _ "Not a directory" => .notDirectory
  | .invalidArgument _ _ "File name too long" => .nameTooLong
  | .invalidArgument _ _ words | .permissionDenied _ _ words | .resourceExhausted _ _ words =>
    .other (lower (ofString words))
  | e => .other (ofString (toString e))

/-- Reads a file. -/
def readFile (path : ByteString) : BaseIO (Except FileError ByteString) := do
  match ← (IO.FS.Handle.mk (pathOf path) .read).toBaseIO with
  | .error e => return .error { operation := "open", path, fault := faultOf e }
  | .ok handle =>
    match ← handle.readBinToEnd.toBaseIO with
    | .error e => return .error { operation := "read", path, fault := faultOf e }
    | .ok contents => return .ok contents.toList

/-- Creates a file, or replaces the contents of an old one. -/
def createFile (path contents : ByteString) : BaseIO (Except FileError Unit) := do
  match ← (IO.FS.Handle.mk (pathOf path) .write).toBaseIO with
  | .error e => return .error { operation := "open", path, fault := faultOf e }
  | .ok handle =>
    match ← (handle.write ⟨contents.toArray⟩).toBaseIO with
    | .error e => return .error { operation := "write", path, fault := faultOf e }
    | .ok () => return .ok ()

/-- Writes bytes to a stream. -/
def put (stream : IO.FS.Stream) (s : ByteString) : IO Unit := do
  stream.write ⟨s.toArray⟩
  stream.flush

/-- Writes the output where the options ask for it. -/
def deliver (o : Options) (a : Assembly) : IO (Except FileError Unit) := do
  if o.output = [] then
    put (← IO.getStdout) (o.outputText a)
    return .ok ()
  else createFile o.output (o.outputText a)

/-- Reports an error; the result is the exit code. -/
def complain (e : RunError) : IO UInt32 := do
  put (← IO.getStderr) (Diagnostic.report e.diagnostics)
  return 1

end CommandLine

end MipsAssembler

/-- Runs the assembler. -/
def main (arguments : List String) : IO UInt32 := do
  let stderr ← IO.getStderr
  match readArguments (arguments.map ofString) with
  | .error e =>
    put stderr (e.message ++ usage)
    return UInt32.ofNat e.exitCode
  | .ok (o, file) =>
    match o.assembleSource (← readFile file) with
    | .error e => complain e
    | .ok a =>
      put stderr (o.dumpText a)
      match ← deliver o a with
      | .error e => complain (.output e)
      | .ok () =>
        put stderr (o.remarks file a)
        return 0
