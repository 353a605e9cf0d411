import MipsAssembler.Program.Error

/-!
# Diagnostics

How errors are reported: one line an error, with the line of the source where it is known, and a
count at the end. Of a line of source at most 64 bytes are shown.
-/

namespace MipsAssembler

open ByteString

/-- One error of a report. -/
inductive Diagnostic where
  | atLine (number : Int) (contents message : ByteString)
  | general (message : ByteString)
  deriving DecidableEq, Repr

namespace Diagnostic

/-- The number and the start of a line of source. -/
def heading (number : Int) (contents : ByteString) : ByteString :=
  decimal number ++ " (" ++ cutTo 64 contents ++ "): "

/-- The text of an error. -/
def message : Diagnostic → ByteString
  | atLine number contents text => heading number contents ++ text
  | general text => text

/-- The line of an error in a report. -/
def reportLine : Diagnostic → ByteString
  | atLine number contents text => line (heading number contents ++ "Error: " ++ text)
  | general text => line ("Error: " ++ text)

/-- A report of errors. -/
def report (errors : List Diagnostic) : ByteString :=
  errors.flatMap reportLine ++
    line (natural errors.length ++ " error(s) generated from assembler.")

end Diagnostic

/-- The diagnostic of a line of source. -/
def LineError.diagnostic (e : LineError) : Diagnostic := .atLine e.line e.contents e.error.message

namespace AssemblyError

/-- The errors that a report lists. -/
def diagnostics : AssemblyError → List Diagnostic
  | source errors => errors.map LineError.diagnostic
  | window e => [.general e.message]
  | layout category region e =>
    [.general ("laying out " ++ category.name ++ " segments in " ++ region.render ++ ": " ++
      e.message)]
  | misaligned category start =>
    [.general ("misaligned segment start: " ++ category.name ++ " segment at " ++ hexWord start ++
      " is not word aligned")]
  | entry number e =>
    [.general (if number ≤ 0 then e.message else "line " ++ decimal number ++ ": " ++ e.message)]

/-- The wording of an error. -/
def message (e : AssemblyError) : ByteString := join "\n" (e.diagnostics.map Diagnostic.message)

end AssemblyError

end MipsAssembler
