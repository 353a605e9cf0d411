/-!
# Kinds of errors

Every error of the assembler belongs to one kind. Each module has its own type of errors, with the
cause and its data; `kind` on that type says to which of the kinds below an error belongs, and
`message` words it.
-/

namespace MipsAssembler

/-- The kinds of errors. -/
inductive ErrorKind where
  /-- A placement request that no free memory can hold. -/
  | noFit
  /-- A malformed extent, request or window. -/
  | invariant
  /-- A segment that runs past the end of its window. -/
  | segmentOverflow
  /-- A label that is defined twice. -/
  | duplicateLabel
  /-- A label that is used and never defined. -/
  | unresolvedLabel
  /-- A number that its field cannot hold. -/
  | fieldOverflow
  /-- A text segment that does not start at a word boundary. -/
  | misaligned
  /-- An entry that has no address yet. -/
  | unassigned
  /-- An instruction that has no machine word. -/
  | notEncodable
  /-- An operation code that no instruction has. -/
  | unknownOpcode
  /-- Anything else, such as a malformed line. -/
  | other
  deriving DecidableEq, Repr

end MipsAssembler
