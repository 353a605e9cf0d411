import MipsAssembler.CommandLine.Directory
import MipsAssembler.CommandLine.Options
import MipsAssembler.Program.Loading
import MipsAssembler.Report.Diagnostic
import MipsAssembler.Report.Listing
import MipsAssembler.Report.Usage

/-!
# Runs

A run of the assembler on a command line: what it writes, which files it leaves and with which code
it ends. `run` does all of it on a working directory; its steps are functions of their own, for a
program that does the same on a file system.
-/

namespace MipsAssembler

open ByteString

namespace CommandLine

/-- Why a run fails. -/
inductive RunError where
  | start (error : BadStart)
  /-- The source file cannot be opened or read. -/
  | source (error : FileError)
  | assembly (error : AssemblyError)
  | output (error : FileError)
  deriving DecidableEq, Repr

/-- The errors that a report lists. A source file that cannot be opened is said to be so; one that
cannot be read is not. -/
def RunError.diagnostics : RunError → List Diagnostic
  | start e => [.general e.message]
  | source e =>
    if e.operation = ofString "open" then
      [.general ("failed to open assembly file: " ++ e.message)]
    else [.general e.message]
  | assembly e => e.diagnostics
  | output e => [.general e.message]

/-- The output of a run: the image or the listing, and the symbol table if it is asked for. -/
def Options.outputText (o : Options) (a : Assembly) : ByteString :=
  (if o.hex then a.image.dump else Listing.render a.program 0) ++
    if o.symbols then line [] ++ a.symbols.render o.split else []

/-- The resolved program and all of its symbols, if they are asked for. -/
def Options.dumpText (o : Options) (a : Assembly) : ByteString :=
  if o.dump then Listing.render a.program 0 ++ line "Symbols:" ++ a.symbols.render true else []

/-- The figures of a program, if they are asked for. -/
def Options.remarks (o : Options) (file : ByteString) (a : Assembly) : ByteString :=
  if o.detailed then line [] ++ (Usage.ofProgram a.program a.symbols).render file true else []

/-- How a run ends. -/
structure Outcome where
  exitCode : Nat
  stdout : ByteString := []
  stderr : ByteString := []
  directory : Directory

/-- Ends a run with an error. -/
def failed (d : Directory) (remarks : ByteString) (e : RunError) : Outcome :=
  { exitCode := 1, stderr := remarks ++ Diagnostic.report e.diagnostics, directory := d }

/-- Assembles what reading the source file gave. A bad start address is reported before a file that
cannot be read. -/
def Options.assembleSource (o : Options) (source : Except FileError ByteString) :
    Except RunError Assembly :=
  match o.windows with
  | .error e => .error (.start e)
  | .ok w =>
    match source with
    | .error e => .error (.source e)
    | .ok src =>
      match assemble w src with
      | .error e => .error (.assembly e)
      | .ok a => .ok a

/-- Writes what is asked for about a program. -/
def present (o : Options) (file : ByteString) (a : Assembly) (d : Directory) : Outcome :=
  let remarks := o.dumpText a ++ o.remarks file a
  if o.output = [] then
    { exitCode := 0, stdout := o.outputText a, stderr := remarks, directory := d }
  else match d.create o.output (o.outputText a) with
    | .ok d' => { exitCode := 0, stderr := remarks, directory := d' }
    | .error e => failed d (o.dumpText a) (.output e)

/-- Runs the assembler on a command line in a working directory. -/
def run (arguments : List ByteString) (d : Directory) : Outcome :=
  match readArguments arguments with
  | .error e => { exitCode := e.exitCode, stderr := e.message ++ usage, directory := d }
  | .ok (o, file) =>
    match o.assembleSource (d.read file) with
    | .error e => failed d [] e
    | .ok a => present o file a d

end CommandLine

end MipsAssembler
