import MipsAssembler.ByteString.Quoted

/-!
# Data payloads

What one directive of a data segment puts into memory: numbers of one, two or four bytes, a text, or
zeros. `size` is the number of bytes in memory, `encode?` gives these bytes in little-endian order,
and `render` writes the directive.

Sizes are numbers of 32 bits and wrap around. A list of numbers whose cells take more than the
address space has no encoding, because its size is too small for them.
-/

namespace MipsAssembler

open ByteString

/-- The payload of a data entry. A stride is the number of bytes from one number to the next, if it
is more than the number itself takes. -/
inductive Payload where
  | bytes (values : List UInt8) (stride : UInt32)
  | halves (values : List UInt16) (stride : UInt32)
  | words (values : List UInt32) (stride : UInt32)
  /-- A text, with a zero byte after it if it is terminated, filled up with zeros to a multiple of
  `align`. -/
  | text (chars : ByteString) (terminated : Bool) (align : UInt32)
  /-- As many zeros as the number says. -/
  | space (count : UInt32)
  deriving DecidableEq, Repr

/-- The next multiple of `align` from `n` on, modulo `2 ^ 32`. -/
def roundUp (n align : UInt32) : UInt32 :=
  if align ≤ 1 then n
  else if n % align = 0 then n
  else n + align - n % align

namespace Payload

/-- The bytes from one number to the next. -/
def cell (width stride : UInt32) : UInt32 := if width < stride then stride else width

/-- The number of bytes in memory. -/
def size : Payload → UInt32
  | bytes values stride => UInt32.ofNat values.length * cell 1 stride
  | halves values stride => UInt32.ofNat values.length * cell 2 stride
  | words values stride => UInt32.ofNat values.length * cell 4 stride
  | text chars terminated align =>
    roundUp (UInt32.ofNat chars.length + if terminated then 1 else 0) align
  | space count => count

/-- The lowest `width` bytes of a number, least significant first. -/
def littleEndian : Nat → Nat → ByteString
  | 0, _ => []
  | width + 1, n => UInt8.ofNat n :: littleEndian width (n / 256)

/-- `buffer` with `bs` written over it from position `start` on, if they have room there. -/
def overwrite? (buffer : ByteString) (start : Nat) (bs : ByteString) : Option ByteString :=
  if start + bs.length ≤ buffer.length then
    some (buffer.take start ++ bs ++ buffer.drop (start + bs.length))
  else none

/-- Numbers of `width` bytes, each at the start of its cell, in `total` bytes that are zero
otherwise. -/
def encodeCells? (width : Nat) (cell total : UInt32) (values : List Nat) : Option ByteString :=
  values.zipIdx.foldlM
    (fun buffer (v, i) => overwrite? buffer (UInt32.ofNat i * cell).toNat (littleEndian width v))
    (List.replicate total.toNat 0)

/-- The bytes in memory, unless the numbers do not fit into the size. -/
def encode? (p : Payload) : Option ByteString :=
  match p with
  | bytes values stride => encodeCells? 1 (cell 1 stride) p.size (values.map UInt8.toNat)
  | halves values stride => encodeCells? 2 (cell 2 stride) p.size (values.map UInt16.toNat)
  | words values stride => encodeCells? 4 (cell 4 stride) p.size (values.map UInt32.toNat)
  | text chars _ _ =>
    let size := p.size.toNat
    some (chars.take size ++ List.replicate (size - chars.length) 0)
  | space count => some (List.replicate count.toNat 0)

/-- Numbers in hexadecimal with commas between them. -/
def hexList (values : List Nat) : ByteString := join ", " (values.map fun v => "0x" ++ hex 1 v)

/-- The directive that a payload stands for. -/
def render : Payload → ByteString
  | bytes values _ => ".byte " ++ hexList (values.map UInt8.toNat)
  | halves values _ => ".half " ++ hexList (values.map UInt16.toNat)
  | words values _ => ".word " ++ hexList (values.map UInt32.toNat)
  | text chars terminated _ => (if terminated then ".asciiz " else ".ascii ") ++ quote chars
  | space count => ".space " ++ natural count.toNat

end Payload

end MipsAssembler
