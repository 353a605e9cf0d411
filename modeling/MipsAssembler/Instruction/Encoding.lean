import MipsAssembler.ErrorKind
import MipsAssembler.Instruction.Basic

/-!
# Machine words

`encode` packs an instruction into its machine word and `decode` takes a word apart again. From the
most significant bit down a word holds

* an operation of 6 bits, then two registers `rs` and `rt` of 5 bits each, and then either a register
  `rd` of 5, a shift amount of 5 and a function of 6 bits, or an immediate of 16 bits;
* or an operation of 6 bits and a jump target of 26 bits.

Register instructions have operation zero. A field that is too narrow for a register code takes its
low bits.
-/

namespace MipsAssembler

open ByteString

namespace Instruction

/-- Why an instruction has no machine word, or a word no instruction. -/
inductive EncodingError where
  | unknownFunct (code : UInt8)
  | unknownOp (code : UInt8)
  | shiftTooWide (shift : UInt8)
  | pseudo (op : ImmediateOp)
  | targetTooWide (target : UInt32)
  | unresolved (inst : Instruction)
  | unknownFunctIn (code : UInt8) (word : UInt32)
  | unknownOpIn (code : UInt8) (word : UInt32)
  deriving DecidableEq, Repr

namespace EncodingError

/-- The kind of an error. -/
def kind : EncodingError → ErrorKind
  | unknownFunct _ | unknownOp _ | unknownFunctIn .. | unknownOpIn .. => .unknownOpcode
  | shiftTooWide _ | pseudo _ | targetTooWide _ | unresolved _ => .notEncodable

/-- The detail of an error. -/
def detail : EncodingError → ByteString
  | unknownFunct code => "funct " ++ hexByte code
  | unknownOp code => "opcode " ++ hexByte code
  | shiftTooWide shift => "shift amount " ++ natural shift.toNat ++ " does not fit into 5 bits"
  | pseudo op => quote op.name ++ " is a pseudo instruction"
  | targetTooWide target =>
    "jump target 0x" ++ hex 1 target.toNat ++ " does not fit into 26 bits"
  | unresolved inst => "unresolved " ++ quote inst.render
  | unknownFunctIn code word => "funct " ++ hexByte code ++ " in " ++ hexWord word
  | unknownOpIn code word => hexByte code ++ " in " ++ hexWord word

/-- The wording of an error. -/
def message (e : EncodingError) : ByteString :=
  let cause : ByteString :=
    if e.kind = .unknownOpcode then "unknown opcode" else "instruction cannot be encoded"
  cause ++ ": " ++ e.detail

end EncodingError

/-- The word of a register instruction. -/
def registerWord (f : Funct) (rs rt rd : Register) (shift : UInt8) : UInt32 :=
  UInt32.ofNat ((rs.code.toNat % 0x20) <<< 21 + (rt.code.toNat % 0x20) <<< 16 +
    (rd.code.toNat % 0x20) <<< 11 + (shift.toNat % 0x20) <<< 6 + f.code.toNat % 0x40)

/-- The word of an immediate instruction. -/
def immediateWord (op : ImmediateOp) (rs rt : Register) (value : UInt16) : UInt32 :=
  UInt32.ofNat (op.code.toNat <<< 26 + (rs.code.toNat % 0x20) <<< 21 +
    (rt.code.toNat % 0x20) <<< 16 + value.toNat)

/-- The word of a jump. -/
def jumpWord (op : JumpOp) (target : UInt32) : UInt32 :=
  UInt32.ofNat (op.code.toNat <<< 26 + target.toNat % 0x4000000)

/-- The machine word of an instruction. -/
def encode : Instruction → Except EncodingError UInt32
  | register f rs rt rd shift =>
    if f.operation?.isNone then .error (.unknownFunct f.code)
    else if 0x1F < shift then .error (.shiftTooWide shift)
    else .ok (registerWord f rs rt rd shift)
  | immediate op rs rt value =>
    if op.isPseudo then .error (.pseudo op)
    else if op.operation?.isNone then .error (.unknownOp op.code)
    else .ok (immediateWord op rs rt value)
  | jump op target =>
    if op.operation?.isNone then .error (.unknownOp op.code)
    else if 0x3FFFFFF < target then .error (.targetTooWide target)
    else .ok (jumpWord op target)
  | inst => .error (.unresolved inst)

/-- The field of `width` bits of a word above its lowest `low` bits. -/
def field (word : UInt32) (low width : Nat) : Nat := (word.toNat >>> low) % (1 <<< width)

/-- The instruction of a machine word. -/
def decode (word : UInt32) : Except EncodingError Instruction :=
  let op := UInt8.ofNat (field word 26 6)
  let rs : Register := ⟨UInt8.ofNat (field word 21 5)⟩
  let rt : Register := ⟨UInt8.ofNat (field word 16 5)⟩
  if op = 0 then
    let f : Funct := ⟨UInt8.ofNat (field word 0 6)⟩
    if f.operation?.isNone then .error (.unknownFunctIn f.code word)
    else .ok (register f rs rt ⟨UInt8.ofNat (field word 11 5)⟩ (UInt8.ofNat (field word 6 5)))
  else if (JumpOp.mk op).operation?.isSome then
    .ok (jump ⟨op⟩ (UInt32.ofNat (field word 0 26)))
  else if (ImmediateOp.mk op).operation?.isNone then .error (.unknownOpIn op word)
  else .ok (immediate ⟨op⟩ rs rt (UInt16.ofNat (field word 0 16)))

end Instruction

end MipsAssembler
