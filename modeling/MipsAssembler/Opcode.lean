import MipsAssembler.ByteString.Numeral

/-!
# Operation codes

The instruction set as three tables, one for each place where a machine word keeps the code of its
operation: the function field of register instructions, the operation field of immediate
instructions, and that of jumps. A table says for each code its mnemonic and its format, on which it
depends which operands an instruction has in source text. Reading and writing of source text, encoding
and decoding all go through these tables.

Codes are bytes, and a code that is in no table is a value like any other; it is written by its
number.
-/

namespace MipsAssembler

open ByteString

/-! ## Formats -/

/-- A place for an operand in source text. -/
inductive Slot where
  | rd
  | rs
  | rt
  /-- A shift amount of five bits. -/
  | shift
  /-- A literal of sixteen bits or a label. -/
  | immediate
  /-- The target of a branch: a label, or a distance in words. -/
  | label
  /-- An address in memory: a literal or a label, with an optional base register. -/
  | memory
  /-- A literal of 32 bits or a label. -/
  | value
  /-- The target of a jump: a label, or a distance in words. -/
  | target
  deriving DecidableEq, Repr

/-- How the form of an instruction names a slot. -/
def Slot.name : Slot → ByteString
  | rd => "$rd"
  | rs => "$rs"
  | rt => "$rt"
  | shift => "shamt"
  | immediate => "imm"
  | label => "label"
  | memory => "offset($rs)"
  | value => "value"
  | target => "label"

/-- The formats of the instructions. -/
inductive Format where
  | none
  | rdRsRt
  | shift
  | shiftVariable
  | rs
  | rdRs
  | rsRt
  | rd
  | arithmetic
  | upper
  | branch
  | branchZero
  | memory
  | load
  | jump
  deriving DecidableEq, Repr

/-- The operands of a format, in the order in which they are read. -/
def Format.slots : Format → List Slot
  | none => []
  | rdRsRt => [.rd, .rs, .rt]
  | shift => [.rd, .rt, .shift]
  | shiftVariable => [.rd, .rt, .rs]
  | rs => [.rs]
  | rdRs => [.rd, .rs]
  | rsRt => [.rs, .rt]
  | rd => [.rd]
  | arithmetic => [.rt, .rs, .immediate]
  | upper => [.rt, .immediate]
  | branch => [.rs, .rt, .label]
  | branchZero => [.rs, .label]
  | memory => [.rt, .memory]
  | load => [.rt, .value]
  | jump => [.target]

/-- What a table says about a code. -/
structure Operation where
  mnemonic : ByteString
  format : Format
  deriving DecidableEq, Repr

/-- A table of operations by code. -/
abbrev OpcodeTable := List (UInt8 × Operation)

/-- The code of a mnemonic. -/
def OpcodeTable.code? (t : OpcodeTable) (mnemonic : ByteString) : Option UInt8 :=
  (t.find? fun (_, o) => o.mnemonic = mnemonic).map (·.1)

/-- The mnemonic of a code, or its number, with what it is a code of, if it is unknown. -/
def OpcodeTable.nameOf (t : OpcodeTable) (field : ByteString) (code : UInt8) : ByteString :=
  match t.lookup code with
  | some o => o.mnemonic
  | none => field ++ "(" ++ hexByte code ++ ")"

/-! ## Register instructions -/

/-- The function field of a register instruction. -/
structure Funct where
  code : UInt8
  deriving DecidableEq, Repr

namespace Funct

/-- The operations of register instructions. -/
def table : OpcodeTable :=
  [(0x00, ⟨"sll", .shift⟩), (0x02, ⟨"srl", .shift⟩), (0x03, ⟨"sra", .shift⟩),
   (0x04, ⟨"sllv", .shiftVariable⟩), (0x06, ⟨"srlv", .shiftVariable⟩),
   (0x07, ⟨"srav", .shiftVariable⟩), (0x08, ⟨"jr", .rs⟩), (0x09, ⟨"jalr", .rdRs⟩),
   (0x0C, ⟨"syscall", .none⟩), (0x0D, ⟨"break", .none⟩), (0x10, ⟨"mfhi", .rd⟩),
   (0x11, ⟨"mthi", .rs⟩), (0x12, ⟨"mflo", .rd⟩), (0x13, ⟨"mtlo", .rs⟩), (0x18, ⟨"mult", .rsRt⟩),
   (0x19, ⟨"multu", .rsRt⟩), (0x1A, ⟨"div", .rsRt⟩), (0x1B, ⟨"divu", .rsRt⟩),
   (0x20, ⟨"add", .rdRsRt⟩), (0x21, ⟨"addu", .rdRsRt⟩), (0x22, ⟨"sub", .rdRsRt⟩),
   (0x23, ⟨"subu", .rdRsRt⟩), (0x24, ⟨"and", .rdRsRt⟩), (0x25, ⟨"or", .rdRsRt⟩),
   (0x26, ⟨"xor", .rdRsRt⟩), (0x27, ⟨"nor", .rdRsRt⟩), (0x2A, ⟨"slt", .rdRsRt⟩),
   (0x2B, ⟨"sltu", .rdRsRt⟩)]

/-- The shift to the left, which also serves as the instruction that does nothing. -/
def shiftLeft : Funct := ⟨0x00⟩

/-- What the table says about the code. -/
def operation? (f : Funct) : Option Operation := table.lookup f.code

/-- The function with a given mnemonic. -/
def ofMnemonic? (mnemonic : ByteString) : Option Funct := (table.code? mnemonic).map Funct.mk

/-- The mnemonic, or the number of an unknown code. -/
def name (f : Funct) : ByteString := table.nameOf "funct" f.code

/-- The format; an unknown code has no operands. -/
def format (f : Funct) : Format := (f.operation?.map (·.format)).getD .none

end Funct

/-! ## Immediate instructions -/

/-- The operation field of an immediate instruction. Codes above `0x3F` do not fit the field: they
are pseudo instructions, which the assembler replaces before it encodes. -/
structure ImmediateOp where
  code : UInt8
  deriving DecidableEq, Repr

namespace ImmediateOp

/-- The operations of immediate instructions. -/
def table : OpcodeTable :=
  [(0x04, ⟨"beq", .branch⟩), (0x05, ⟨"bne", .branch⟩), (0x06, ⟨"blez", .branchZero⟩),
   (0x07, ⟨"bgtz", .branchZero⟩), (0x08, ⟨"addi", .arithmetic⟩), (0x09, ⟨"addiu", .arithmetic⟩),
   (0x0A, ⟨"slti", .arithmetic⟩), (0x0B, ⟨"sltiu", .arithmetic⟩), (0x0C, ⟨"andi", .arithmetic⟩),
   (0x0D, ⟨"ori", .arithmetic⟩), (0x0E, ⟨"xori", .arithmetic⟩), (0x0F, ⟨"lui", .upper⟩),
   (0x20, ⟨"lb", .memory⟩), (0x21, ⟨"lh", .memory⟩), (0x23, ⟨"lw", .memory⟩),
   (0x24, ⟨"lbu", .memory⟩), (0x25, ⟨"lhu", .memory⟩), (0x28, ⟨"sb", .memory⟩),
   (0x29, ⟨"sh", .memory⟩), (0x2B, ⟨"sw", .memory⟩), (0x30, ⟨"ll", .memory⟩),
   (0x38, ⟨"sc", .memory⟩), (0x41, ⟨"la", .load⟩), (0x42, ⟨"li", .load⟩)]

/-- Loads sixteen bits into the upper half of a register. -/
def loadUpper : ImmediateOp := ⟨0x0F⟩

/-- Sets the bits of a literal in a register. -/
def orImmediate : ImmediateOp := ⟨0x0D⟩

/-- What the table says about the code. -/
def operation? (op : ImmediateOp) : Option Operation := table.lookup op.code

/-- The operation with a given mnemonic. -/
def ofMnemonic? (mnemonic : ByteString) : Option ImmediateOp :=
  (table.code? mnemonic).map ImmediateOp.mk

/-- The mnemonic, or the number of an unknown code. -/
def name (op : ImmediateOp) : ByteString := table.nameOf "op" op.code

/-- The format, if the code is known. -/
def format? (op : ImmediateOp) : Option Format := op.operation?.map (·.format)

/-- Is the immediate a distance in words from the instruction itself? -/
def isBranch (op : ImmediateOp) : Bool := 0x04 ≤ op.code && op.code ≤ 0x07

/-- Does the operation exist in source text only? -/
def isPseudo (op : ImmediateOp) : Bool := 0x3F < op.code

end ImmediateOp

/-! ## Jumps -/

/-- The operation field of a jump. -/
structure JumpOp where
  code : UInt8
  deriving DecidableEq, Repr

namespace JumpOp

/-- The operations of jumps. -/
def table : OpcodeTable := [(0x02, ⟨"j", .jump⟩), (0x03, ⟨"jal", .jump⟩)]

/-- What the table says about the code. -/
def operation? (op : JumpOp) : Option Operation := table.lookup op.code

/-- The operation with a given mnemonic. -/
def ofMnemonic? (mnemonic : ByteString) : Option JumpOp := (table.code? mnemonic).map JumpOp.mk

/-- The mnemonic, or the number of an unknown code. -/
def name (op : JumpOp) : ByteString := table.nameOf "op" op.code

end JumpOp

end MipsAssembler
