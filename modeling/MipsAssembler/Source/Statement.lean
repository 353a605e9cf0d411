import MipsAssembler.Instruction.Basic
import MipsAssembler.Source.Literal

/-!
# Instructions in source text

`Instruction.parse` reads the text of an instruction: a mnemonic and operands in the slots of its
format. The operands are read from left to right, and the first that is wrong decides the error; a
wrong number of operands is noticed before any of them is looked at.
-/

namespace MipsAssembler

open ByteString

namespace Instruction

/-- The meaning of an operand that is neither a register nor a shift amount. -/
inductive Operand where
  | number (value : UInt32)
  | symbol (name : ByteString)
  deriving DecidableEq, Repr

/-- What is read into the slots of an instruction. -/
structure Operands where
  rs : Register := .zero
  rt : Register := .zero
  rd : Register := .zero
  shift : UInt8 := 0
  /-- What is neither a register nor a shift amount. -/
  operand : Operand := .number 0

/-- Reads a register. -/
def readRegister (text : ByteString) : Except SourceError Register :=
  match Register.parse text with
  | .ok r => .ok r
  | .error e => .error (.register e)

/-- Reads a label or a literal in the given range. -/
def readOperand (low high : Int) (text : ByteString) : Except SourceError Operand :=
  if isSymbol text then .ok (.symbol text)
  else (readLiteral low high text).map fun v => .number (UInt32.ofInt v)

/-- Reads a label or a literal of sixteen bits. -/
def readImmediate (text : ByteString) : Except SourceError Operand :=
  readOperand (-0x8000) 0xFFFF text

/-- Reads an address in memory: an offset and, between parentheses, a base register. A missing
offset is zero, a missing base the register that holds zero. -/
def readAddress (text : ByteString) : Except SourceError (Register × Operand) :=
  let zeroIfEmpty (offset : ByteString) : ByteString := if offset = [] then "0" else offset
  if text.contains (ascii '(') then
    let (offset, rest) := cutAt (· == ascii '(') text
    if rest.getLast? = some (ascii ')') then do
      let base ← readRegister rest.dropLast
      let operand ← readImmediate (zeroIfEmpty offset)
      return (base, operand)
    else .error (.openParenthesis text)
  else (readImmediate (zeroIfEmpty text)).map (Register.zero, ·)

/-- Reads what is to be loaded as a whole: a label or, except for an address, a literal of 32
bits. -/
def readValue (mnemonic text : ByteString) : Except SourceError Operand :=
  if isHalf text then .error (.halfAddress mnemonic (wholeName text))
  else if isSymbol text then .ok (.symbol text)
  else if mnemonic = ofString "la" then .error (.labelExpected text)
  else readOperand (-0x80000000) 0xFFFFFFFF text

/-- Reads the target of a jump: a label or a distance in words, of which 26 bits are kept. -/
def readTarget (text : ByteString) : Except SourceError Operand := do
  match ← readOperand (-0x2000000) 0x1FFFFFF text with
  | .number v => return .number (v % 0x4000000)
  | .symbol name => return .symbol name

/-- Reads a text into a slot. -/
def readSlot (mnemonic : ByteString) (o : Operands) (slot : Slot) (text : ByteString) :
    Except SourceError Operands :=
  match slot with
  | .rd => (readRegister text).map fun r => { o with rd := r }
  | .rs => (readRegister text).map fun r => { o with rs := r }
  | .rt => (readRegister text).map fun r => { o with rt := r }
  | .shift =>
    match readLiteral 0 31 text with
    | .ok v => .ok { o with shift := UInt8.ofInt v }
    | .error e => .error (.badShift e)
  | .immediate | .label => (readImmediate text).map fun v => { o with operand := v }
  | .memory => (readAddress text).map fun (base, v) => { o with rs := base, operand := v }
  | .value => (readValue mnemonic text).map fun v => { o with operand := v }
  | .target => (readTarget text).map fun v => { o with operand := v }

/-- Reads fields into slots, one field for each slot. -/
def readSlots (mnemonic : ByteString) (slots : List Slot) (fields : List ByteString) :
    Except SourceError Operands :=
  if fields.length = slots.length then
    (slots.zip fields).foldlM (fun o (slot, text) => readSlot mnemonic o slot text) {}
  else if slots = [] then .error (.noOperands mnemonic)
  else .error (.wrongForm mnemonic (join ", " (slots.map Slot.name)))

/-- The fields of a register instruction. A call through a register that names only one links
through the return address. -/
def registerFields (f : Funct) (fields : List ByteString) : List ByteString :=
  if f.format = .rdRs ∧ fields.length = 1 then Register.returnAddress.name :: fields else fields

/-- Reads a register instruction. -/
def parseRegister (f : Funct) (fields : List ByteString) : Except SourceError Instruction :=
  (readSlots f.name f.format.slots (registerFields f fields)).map fun o =>
    register f o.rs o.rt o.rd o.shift

/-- The slots of an immediate instruction. -/
def immediateSlots (op : ImmediateOp) : List Slot := (op.format?.getD .arithmetic).slots

/-- Reads an immediate instruction. -/
def parseImmediate (op : ImmediateOp) (fields : List ByteString) :
    Except SourceError Instruction :=
  (readSlots op.name (immediateSlots op) fields).map fun o =>
    match o.operand with
    | .symbol name => immediateLabel op o.rs o.rt name
    | .number v =>
      if op.format? = some .load then loadLiteral op o.rt v
      else immediate op o.rs o.rt v.toUInt16

/-- Reads a jump. -/
def parseJump (op : JumpOp) (fields : List ByteString) : Except SourceError Instruction :=
  (readSlots op.name [.target] fields).map fun o =>
    match o.operand with
    | .symbol name => jumpLabel op name
    | .number v => jump op v

/-- Reads an instruction. -/
def parse (s : ByteString) : Except SourceError Instruction :=
  let (word, rest) := firstWord s
  let mnemonic := lower word
  let fields := if rest = [] then [] else splitOperands rest
  if mnemonic = ofString "nop" then (readSlots mnemonic [] fields).map fun _ => nop
  else match Funct.ofMnemonic? mnemonic with
    | some f => parseRegister f fields
    | none =>
      match ImmediateOp.ofMnemonic? mnemonic with
      | some op => parseImmediate op fields
      | none =>
        match JumpOp.ofMnemonic? mnemonic with
        | some op => parseJump op fields
        | none => .error (.unknownMnemonic word)

end Instruction

end MipsAssembler
