import MipsAssembler.Opcode
import MipsAssembler.Register

/-!
# Instructions

An instruction is either in the form in which the machine has it (register, immediate and jump
instructions) or still waits for the assembler: for the address of a label, or for its replacement
by machine instructions. `render` writes an instruction as source text.
-/

namespace MipsAssembler

open ByteString

/-- An instruction. -/
inductive Instruction where
  | register (funct : Funct) (rs rt rd : Register) (shift : UInt8)
  | immediate (op : ImmediateOp) (rs rt : Register) (value : UInt16)
  /-- A jump; the target is the content of a field of 26 bits. -/
  | jump (op : JumpOp) (target : UInt32)
  /-- An immediate instruction whose immediate is the value of a label. -/
  | immediateLabel (op : ImmediateOp) (rs rt : Register) (label : ByteString)
  /-- A jump to a label. -/
  | jumpLabel (op : JumpOp) (label : ByteString)
  /-- A pseudo instruction that loads a literal of 32 bits. -/
  | loadLiteral (op : ImmediateOp) (rt : Register) (value : UInt32)
  deriving DecidableEq, Repr

namespace Instruction

/-- The instruction that does nothing; its machine word is zero. -/
def nop : Instruction := register .shiftLeft .zero .zero .zero 0

/-- The mnemonic of an instruction. -/
def mnemonic : Instruction → ByteString
  | register f .. => f.name
  | immediate op .. | immediateLabel op .. | loadLiteral op .. => op.name
  | jump op _ | jumpLabel op _ => op.name

/-- Is the instruction in the form in which the machine has it? -/
def isResolved : Instruction → Bool
  | register .. | jump .. => true
  | immediate op .. => !op.isPseudo
  | _ => false

/-! ## Source text -/

/-- A mnemonic and the texts of its operands. -/
def written (mnemonic : ByteString) (operands : List ByteString) : ByteString :=
  if operands = [] then mnemonic else mnemonic ++ " " ++ join ", " operands

/-- The operands of a register instruction as they are written. -/
def registerOperands (f : Format) (rs rt rd : Register) (shift : UInt8) : List ByteString :=
  match f with
  | .rdRsRt => [rd.name, rs.name, rt.name]
  | .shift => [rd.name, rt.name, natural shift.toNat]
  | .shiftVariable => [rd.name, rt.name, rs.name]
  | .rs => [rs.name]
  | .rdRs => [rd.name, rs.name]
  | .rsRt => [rs.name, rt.name]
  | .rd => [rd.name]
  | _ => []

/-- The operands of an immediate instruction as they are written, with the text of the immediate. An
unknown operation is written like arithmetic. -/
def immediateOperands (f : Option Format) (rs rt : Register) (immediate : ByteString) :
    List ByteString :=
  match f with
  | some .arithmetic => [rt.name, rs.name, immediate]
  | some .upper | some .load => [rt.name, immediate]
  | some .branch => [rs.name, rt.name, immediate]
  | some .branchZero => [rs.name, immediate]
  | some .memory => [rt.name, immediate ++ "(" ++ rs.name ++ ")"]
  | _ => [rt.name, rs.name, immediate]

/-- The text of the immediate: the distance of a branch in decimal, any other in hexadecimal. -/
def immediateText (op : ImmediateOp) (value : UInt16) : ByteString :=
  if op.isBranch then decimal value.toInt16.toInt else "0x" ++ hex 4 value.toNat

/-- An instruction as source text. -/
def render : Instruction → ByteString
  | register f rs rt rd shift =>
    if register f rs rt rd shift = nop then "nop"
    else written f.name (registerOperands f.format rs rt rd shift)
  | immediate op rs rt value =>
    written op.name (immediateOperands op.format? rs rt (immediateText op value))
  | jump op target => written op.name ["0x" ++ hex 7 target.toNat]
  | immediateLabel op rs rt label => written op.name (immediateOperands op.format? rs rt label)
  | jumpLabel op label => written op.name [label]
  | loadLiteral op rt value => written op.name [rt.name, "0x" ++ hex 1 value.toNat]

end Instruction

end MipsAssembler
