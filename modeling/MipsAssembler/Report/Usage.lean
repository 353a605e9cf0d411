import MipsAssembler.Program.Basic
import MipsAssembler.Report.Percentage
import MipsAssembler.SymbolTable

/-!
# Usage

Figures about a program: how many segments of each category, instructions, bytes of data and labels
it has, and how often it uses each mnemonic.
-/

namespace MipsAssembler

open ByteString

/-- Figures about a program. -/
structure Usage where
  segments : Category → Int := fun _ => 0
  instructions : Int := 0
  dataBytes : UInt32 := 0
  labels : Int := 0
  mnemonics : Std.ExtTreeMap ByteString Int := ∅

namespace Usage

/-- The name under which an instruction is counted; the instruction that does nothing has its
own. -/
def countedName (inst : Instruction) : ByteString :=
  if inst = .nop then "nop" else inst.mnemonic

/-- Counts a name once more. -/
def countName (counts : Std.ExtTreeMap ByteString Int) (name : ByteString) :
    Std.ExtTreeMap ByteString Int :=
  counts.insert name (counts.getD name 0 + 1)

/-- The number of segments of a category. -/
def segmentCount (p : Program) : Category → Nat
  | .text m => (p.text m).length
  | .data m => (p.data m).length

/-- The instructions of a program. -/
def allInstructions (p : Program) : List Instruction :=
  (p.allText.flatMap (·.entries)).map (·.item)

/-- The figures of a program with its symbol table. -/
def ofProgram (p : Program) (t : SymbolTable) : Usage where
  segments k := segmentCount p k
  instructions := (allInstructions p).length
  dataBytes := p.allData.foldl (fun n s => n + s.size) 0
  labels := (t.names.filter (!isHalf ·)).length
  mnemonics := ((allInstructions p).map countedName).foldl countName ∅

/-- Does `a` come before `b` in the list of mnemonics: more often used, or equally often and first
in the order of names? -/
def comesBefore (a b : ByteString × Int) : Bool :=
  b.2 < a.2 || (a.2 == b.2 && (compare a.1 b.1).isLE)

/-- The mnemonics, the most used first. -/
def ranking (u : Usage) : List (ByteString × Int) := u.mnemonics.toList.mergeSort comesBefore

/-- The line of a category. -/
def segmentLine (u : Usage) (k : Category) : ByteString :=
  if 0 < u.segments k then line (" - " ++ decimal (u.segments k) ++ " " ++ k.name ++ " segment(s)")
  else []

/-- The line of a mnemonic. -/
def mnemonicLine (u : Usage) (name : ByteString) (count : Int) : ByteString :=
  line (" - " ++ name ++ ": " ++ decimal count ++ " (" ++
    Percentage.render count u.instructions ++ ")")

/-- The figures as text, with the mnemonics if that is asked for and there are instructions. -/
def render (u : Usage) (file : ByteString) (detailed : Bool) : ByteString :=
  line "+====[ ASSEMBLY RESULTS ]====+" ++ line ("Assembly of " ++ file ++ ".") ++
    line "Summary:" ++ Category.all.flatMap u.segmentLine ++
    line (" - " ++ decimal u.instructions ++ " SI; " ++ natural u.dataBytes.toNat ++
      " bytes of data; " ++ decimal u.labels ++ " label(s)") ++
    if detailed ∧ u.instructions ≠ 0 then
      line [] ++ line "Op-code usage:" ++
        u.ranking.flatMap fun (name, count) => u.mnemonicLine name count
    else []

end Usage

end MipsAssembler
