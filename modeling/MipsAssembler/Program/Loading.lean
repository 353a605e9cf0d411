import MipsAssembler.Program.Linking
import MipsAssembler.Source.Draft

/-!
# Loading

`Program.load` writes a resolved program into a memory image: each instruction as a machine word,
each payload byte by byte. `assemble` goes the whole way from a source to its image.
-/

namespace MipsAssembler

open ByteString

/-- Writes an instruction at its address. -/
def storeInstruction (m : PagedMemory) (e : Entry Instruction) :
    Except AssemblyError PagedMemory :=
  match addressOf? e.place with
  | none => .error (.entry e.line (.unassigned e.item.render))
  | some a =>
    match e.item.encode with
    | .error err => .error (.entry e.line (.encoding err))
    | .ok word =>
      match PagedMemory.storeWord a word m with
      | .error err _ => .error (.entry e.line (.store err))
      | .ok _ m' => .ok m'

/-- Writes a payload at its address. A payload without bytes needs none. -/
def storePayload (m : PagedMemory) (e : Entry Payload) : Except AssemblyError PagedMemory :=
  if e.item.size = 0 then .ok m
  else match addressOf? e.place with
    | none => .error (.entry e.line (.unassigned e.item.render))
    | some a =>
      match e.item.encode? with
      | none => .error (.entry e.line (.payload e.item.render))
      | some bs => .ok (m.storeBytes a bs)

/-- The memory image of a resolved program. -/
def Program.load (p : Program) : Except AssemblyError PagedMemory := do
  let text ← (p.allText.flatMap (·.entries)).foldlM storeInstruction {}
  (p.allData.flatMap (·.entries)).foldlM storePayload text

/-- A program that is ready to run. -/
structure Assembly where
  program : Program
  symbols : SymbolTable
  image : PagedMemory

/-- Reads a source, resolves it and writes its image. -/
def assemble (w : Windows) (src : ByteString) : Except AssemblyError Assembly := do
  let parsed ← match Program.parse src with
    | .ok p => .ok p
    | .error errors => .error (.source errors)
  let (program, symbols) ← parsed.resolve w
  let image ← program.load
  return { program, symbols, image }

end MipsAssembler
