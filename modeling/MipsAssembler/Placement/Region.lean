import MipsAssembler.ByteString.Numeral

/-!
# Regions of the address space

A region is a named window of addresses, `start` included and `stop` not. The standard memory map
divides the address space from the bottom up into reserved addresses, the user's text and static
data, the kernel's text and data, the addresses of devices, and reserved addresses again.
-/

namespace MipsAssembler

open ByteString

/-- A named window of addresses. -/
structure Region where
  name : ByteString
  start : UInt32
  stop : UInt32
  deriving DecidableEq, Repr

namespace Region

/-- The last address of the window. -/
def last (r : Region) : UInt32 := r.stop - 1

/-- The number of addresses in the window. -/
def size (r : Region) : UInt32 := r.stop - r.start

/-- Is `a` an address of the window? -/
def contains (r : Region) (a : UInt32) : Bool := r.start ≤ a && a < r.stop

/-- Does the window hold no address? -/
def isEmpty (r : Region) : Bool := r.stop ≤ r.start

/-- The name and the bounds of a region. -/
def render (r : Region) : ByteString :=
  r.name ++ " [" ++ hexWord r.start ++ ", " ++ hexWord r.stop ++ ")"

/-! ## The standard memory map -/

/-- The addresses below the user's text. -/
def bottomReserved : Region := ⟨"bottom reserved", 0x06000000, 0x0A000000⟩

/-- The user's instructions. -/
def text : Region := ⟨"text", 0x0A000000, 0x10000000⟩

/-- The user's data, up to the start of the stack. -/
def staticData : Region := ⟨"static data", 0x10000000, 0x80000000⟩

/-- The kernel's instructions. -/
def kernelText : Region := ⟨"kernel text", 0x80000000, 0x90000000⟩

/-- The kernel's data. -/
def kernelData : Region := ⟨"kernel data", 0x90000000, 0xFFFF0000⟩

/-- The addresses of devices. -/
def devices : Region := ⟨"mmio", 0xFFFF0000, 0xFFFF0010⟩

/-- The addresses at the top. -/
def topReserved : Region := ⟨"top reserved", 0xFFFF0010, 0xFFFFFFFF⟩

/-- The standard regions in ascending order. -/
def all : List Region :=
  [bottomReserved, text, staticData, kernelText, kernelData, devices, topReserved]

end Region

end MipsAssembler
