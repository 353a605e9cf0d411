import MipsAssembler.Instruction.Encoding
import MipsAssembler.PagedMemory
import MipsAssembler.Program.Windows
import MipsAssembler.SymbolTable

/-!
# Errors of assembly

What can go wrong between a source and its memory image. The errors that belong to a single entry of
a program name the line of the entry.
-/

namespace MipsAssembler

open ByteString

/-- What is wrong with an entry. -/
inductive EntryError where
  /-- A segment that starts at `start` and does not fit into its window. -/
  | overflow (isText : Bool) (start : UInt32) (window : Region)
  | redefinition (error : Redefinition)
  | unresolved (label : ByteString)
  /-- A label whose distance does not fit into a field of `bits` bits. -/
  | distance (mnemonic label : ByteString) (words : Int) (source target : UInt32) (bits : Nat)
  /-- A label whose value does not fit into sixteen bits. -/
  | wide (label : ByteString) (value : UInt32)
  /-- An entry without an address. -/
  | unassigned (text : ByteString)
  | encoding (error : Instruction.EncodingError)
  | store (error : UnalignedStore)
  /-- A payload that has no encoding. -/
  | payload (text : ByteString)
  deriving DecidableEq, Repr

namespace EntryError

/-- The kind of an error. -/
def kind : EntryError → ErrorKind
  | overflow .. => .segmentOverflow
  | redefinition _ => .duplicateLabel
  | unresolved _ => .unresolvedLabel
  | distance .. | wide .. => .fieldOverflow
  | unassigned _ => .unassigned
  | encoding e => e.kind
  | store _ | payload _ => .other

/-- The wording of an error. -/
def message : EntryError → ByteString
  | overflow isText start window =>
    "segment too large: " ++ (if isText then "text" else "data") ++ " segment at " ++
      hexWord start ++ " runs past the end of " ++ window.render
  | redefinition e => e.message
  | unresolved label => "unresolved label: " ++ label
  | distance mnemonic label words source target bits =>
    mnemonic ++ " to " ++ label ++ ": value does not fit into field: offset " ++ decimal words ++
      " from " ++ hexWord source ++ " to " ++ hexWord target ++ " needs more than " ++
      natural bits ++ " bits"
  | wide label value =>
    "value does not fit into field: " ++ label ++ " = 0x" ++ hex 1 value.toNat ++
      " needs more than 16 bits"
  | unassigned text => "entry has no address: " ++ text
  | encoding e => e.message
  | store e => e.message
  | payload text => "payload wraps around the address space: " ++ text

end EntryError

/-- What is wrong with a program. -/
inductive AssemblyError where
  /-- The lines of the source that are wrong. -/
  | source (errors : List LineError)
  | window (error : PlacementError)
  | layout (category : Category) (window : Region) (error : PlacementError)
  | misaligned (category : Category) (start : UInt32)
  | entry (line : Int) (error : EntryError)
  deriving DecidableEq, Repr

namespace AssemblyError

/-- The kind of an error; lines of source have kinds of their own. -/
def kind : AssemblyError → ErrorKind
  | source _ => .other
  | window e | layout _ _ e => e.kind
  | misaligned .. => .misaligned
  | entry _ e => e.kind

end AssemblyError

end MipsAssembler
