import MipsAssembler.Program.Basic
import MipsAssembler.Source.Line

/-!
# Pseudo instructions

A pseudo instruction loads a value of 32 bits into a register. It is replaced by two machine
instructions: the first loads the upper half of the value into the upper half of the register, the
second sets the bits of the lower half. The labels of the pseudo instruction stay with the first.
-/

namespace MipsAssembler

open ByteString

namespace Instruction

/-- The machine instructions in the place of an instruction. -/
def expand : Instruction → List Instruction
  | immediateLabel op rs rt label =>
    if op.isPseudo then
      [immediateLabel .loadUpper .zero rt (label ++ upperEnding),
       immediateLabel .orImmediate rt rt (label ++ lowerEnding)]
    else [immediateLabel op rs rt label]
  | loadLiteral _ rt value => loadPair rt value
  | immediate op rs rt value =>
    if op.isPseudo then loadPair rt value.toUInt32 else [immediate op rs rt value]
  | inst => [inst]
where
  /-- The instructions that load a literal. -/
  loadPair (rt : Register) (value : UInt32) : List Instruction :=
    [immediate .loadUpper .zero rt (value / 0x10000).toUInt16,
     immediate .orImmediate rt rt value.toUInt16]

end Instruction

/-- The entries in the place of an entry; the first takes its place. -/
def Entry.expand (e : Entry Instruction) : List (Entry Instruction) :=
  match e.item.expand with
  | [] => []
  | first :: rest =>
    { e with item := first } :: rest.map fun inst => { place := none, item := inst, line := e.line }

/-- A segment with machine instructions only. -/
def Segment.expand (s : Segment Instruction) : Segment Instruction :=
  { s with entries := s.entries.flatMap Entry.expand }

/-- A program with machine instructions only. -/
def Program.expand (p : Program) : Program :=
  { p with
    userText := p.userText.map Segment.expand
    kernelText := p.kernelText.map Segment.expand }

end MipsAssembler
