import MipsAssembler.Program.Addressing
import MipsAssembler.Program.Expansion

/-!
# Linking

`Program.resolve` turns a program as it is read into one that can be encoded: pseudo instructions
are replaced, all segments are placed, all labels get their addresses, and operands that name labels
get their values. The result comes with the symbol table.

A branch or jump holds the distance from itself to its target in words; any other immediate holds
the value of the label, which must fit into sixteen bits.
-/

namespace MipsAssembler

open ByteString

/-- The distance in words from one address to another, the nearer way round the address space,
rounded down. -/
def wordDistance (source target : UInt32) : Int := (target - source).toInt32.toInt / 4

/-- Does a signed number fit into a field of `bits` bits? -/
def fitsSigned (bits : Nat) (v : Int) : Bool :=
  let half : Int := (1 <<< (bits - 1) : Nat)
  v < half && -half ≤ v

/-- The content of a field of `bits` bits that holds a signed number. -/
def signedField (bits : Nat) (v : Int) : UInt32 := UInt32.ofNat (v % (1 <<< bits : Nat)).toNat

/-- The distance field of an instruction at `source` to a label. -/
def distanceField (mnemonic label : ByteString) (bits : Nat) (source target : UInt32) :
    Except EntryError UInt32 :=
  let words := wordDistance source target
  if fitsSigned bits words then .ok (signedField bits words)
  else .error (.distance mnemonic label words source target bits)

/-- The value of a label. -/
def labelValue (t : SymbolTable) (label : ByteString) : Except EntryError UInt32 :=
  match t.lookup label with
  | some a => .ok a
  | none => .error (.unresolved label)

/-- The value of a label as an immediate. -/
def immediateField (label : ByteString) (value : UInt32) : Except EntryError UInt32 :=
  if 0xFFFF < value then .error (.wide label value) else .ok value

/-- The instruction at address `source` with the values of labels in their place. -/
def Instruction.link (t : SymbolTable) (source : UInt32) :
    Instruction → Except EntryError Instruction
  | .immediateLabel op rs rt label => do
    let target ← labelValue t label
    let value ←
      if op.isBranch then distanceField op.name label 16 source target
      else immediateField label target
    return .immediate op rs rt value.toUInt16
  | .jumpLabel op label => do
    let target ← labelValue t label
    let value ← distanceField op.name label 26 source target
    return .jump op value
  | inst => .ok inst

/-- An entry with the values of labels in their place. -/
def Entry.link (t : SymbolTable) (e : Entry Instruction) :
    Except AssemblyError (Entry Instruction) :=
  match e.item.link t ((addressOf? e.place).getD 0) with
  | .ok inst => .ok { e with item := inst }
  | .error err => .error (.entry e.line err)

/-- A segment with the values of labels in their place. -/
def Segment.link (t : SymbolTable) (s : Segment Instruction) :
    Except AssemblyError (Segment Instruction) :=
  (s.entries.mapM (Entry.link t)).map fun entries => { s with entries }

/-- Checks the windows. -/
def checkWindows (w : Windows) : Except AssemblyError Unit :=
  match w.check with
  | .ok () => .ok ()
  | .error e => .error (.window e)

/-- Places everything and records the labels: a program whose entries have their addresses. -/
def Program.settle (w : Windows) (p : Program) : Except AssemblyError (Program × SymbolTable) := do
  let window := w.region
  let (userText, t) ← MipsAssembler.settle (.text .user) (window (.text .user)) p.userText {}
  let (kernelText, t) ←
    MipsAssembler.settle (.text .kernel) (window (.text .kernel)) p.kernelText t
  let (userData, t) ← MipsAssembler.settle (.data .user) (window (.data .user)) p.userData t
  let (kernelData, t) ←
    MipsAssembler.settle (.data .kernel) (window (.data .kernel)) p.kernelData t
  return ({ userText, userData, kernelText, kernelData }, t)

/-- A program with the values of labels in their place. -/
def Program.link (t : SymbolTable) (p : Program) : Except AssemblyError Program := do
  let userText ← p.userText.mapM (Segment.link t)
  let kernelText ← p.kernelText.mapM (Segment.link t)
  return { p with userText, kernelText }

/-- Places a program in its windows and replaces labels by their values. -/
def Program.resolve (w : Windows) (p : Program) :
    Except AssemblyError (Program × SymbolTable) := do
  checkWindows w
  let (settled, t) ← p.expand.settle w
  let linked ← settled.link t
  return (linked, t)

end MipsAssembler
