import MipsAssembler.Instruction.Encoding
import MipsAssembler.Program.Basic

/-!
# Listings

A listing shows the segments of a program: the labels, the address and the source form of each
entry, and the machine word of each instruction that has one. Lines can be cut to a width in
characters; a stray byte is shown as U+FFFD.
-/

namespace MipsAssembler

open ByteString

namespace Listing

/-- A line of at most `width` characters; a width of zero or less does not limit it. -/
def fit (width : Int) (s : ByteString) : ByteString :=
  line (ofChars (if 0 < width then (shown s).take width.toNat else shown s))

/-- The address of a place; zero if it has none. -/
def address (place : Option Location) : ByteString := hexWord ((addressOf? place).getD 0)

/-- The machine word of an instruction, or question marks. -/
def machineWord (inst : Instruction) : ByteString :=
  match inst.encode with
  | .ok word => hex 8 word.toNat
  | .error _ => "????????"

/-- The line of an instruction. -/
def instructionLine (e : Entry Instruction) : ByteString :=
  "  " ++ address e.place ++ "  " ++ machineWord e.item ++ "  " ++ e.item.render

/-- The line of a payload. -/
def payloadLine (e : Entry Payload) : ByteString :=
  "  " ++ address e.place ++ "  " ++ e.item.render

/-- The lines of an entry: its labels, and its own. -/
def entryLines {α : Type} (itemLine : Entry α → ByteString) (e : Entry α) : List ByteString :=
  (labelsOf e.place).map (fun name => name ++ ofString ":") ++ [itemLine e]

/-- The lines of a segment. -/
def segmentLines {α : Type} (k : Category) (itemLine : Entry α → ByteString) (s : Segment α) :
    List ByteString :=
  ("." ++ k.name ++ " " ++ address s.start) :: s.entries.flatMap (entryLines itemLine)

/-- The lines of the segments of a category. -/
def categoryLines (p : Program) : Category → List ByteString
  | .text m => (p.text m).flatMap (segmentLines (.text m) instructionLine)
  | .data m => (p.data m).flatMap (segmentLines (.data m) payloadLine)

/-- The listing of a program. -/
def render (p : Program) (width : Int) : ByteString :=
  (Category.all.flatMap (categoryLines p)).flatMap (fit width)

end Listing

end MipsAssembler
