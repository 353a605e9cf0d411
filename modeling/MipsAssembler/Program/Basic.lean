import MipsAssembler.Instruction.Basic
import MipsAssembler.Payload

/-!
# Programs

A program consists of segments. A segment holds instructions or data, for the user or for the
kernel, and each of these four categories has its own list of segments in the order of the source.
An entry of a segment carries the labels that stand before it, its line in the source, and its
address once one is assigned.
-/

namespace MipsAssembler

open ByteString

/-! ## Locations -/

/-- A place in memory: its address, if it has one by now, and the labels that name it. -/
structure Location where
  address : Option UInt32 := none
  labels : List ByteString := []
  deriving DecidableEq, Repr

namespace Location

/-- The text of a location: the address, if there is one, and the labels. -/
def render (l : Location) : ByteString :=
  let number : List ByteString := l.address.toList.map hexWord
  let names : List ByteString := if l.labels = [] then [] else [join "," l.labels]
  join " " (number ++ names)

end Location

/-- The address of a place that may be missing. -/
def addressOf? (place : Option Location) : Option UInt32 := place.bind (·.address)

/-- The labels of a place that may be missing. -/
def labelsOf (place : Option Location) : List ByteString := (place.map (·.labels)).getD []

/-- A place with the address `a` instead of the one it had. -/
def placeAt (a : UInt32) (place : Option Location) : Option Location :=
  some { address := some a, labels := labelsOf place }

/-- The text of a place that may be missing. -/
def renderPlace : Option Location → ByteString
  | some l => l.render
  | none => "<none>"

/-! ## Segments -/

/-- One instruction or payload of a segment. -/
structure Entry (α : Type) where
  place : Option Location
  item : α
  /-- The line of the source, counted from one; zero and less if it is not known. -/
  line : Int
  deriving DecidableEq, Repr

/-- A segment: where it starts, and its entries in the order of their addresses. -/
structure Segment (α : Type) where
  start : Option Location
  entries : List (Entry α) := []
  deriving DecidableEq, Repr

/-- What a segment can hold: things that take a number of bytes in memory. -/
class Sized (α : Type) where
  byteSize : α → UInt32

export Sized (byteSize)

instance : Sized Instruction := ⟨fun _ => 4⟩

instance : Sized Payload := ⟨Payload.size⟩

/-- The number of bytes of a segment, modulo `2 ^ 32`. -/
def Segment.size {α : Type} [Sized α] (s : Segment α) : UInt32 :=
  s.entries.foldl (fun n e => n + byteSize e.item) 0

/-- Puts an entry at the end of the last of some segments. -/
def addToLast {α : Type} (e : Entry α) : List (Segment α) → List (Segment α)
  | [] => []
  | [s] => [{ s with entries := s.entries ++ [e] }]
  | s :: rest => s :: addToLast e rest

/-! ## Categories -/

/-- For whom a segment is. -/
inductive Mode where
  | user
  | kernel
  deriving DecidableEq, Repr

/-- The categories of segments; text segments hold instructions. -/
inductive Category where
  | text (mode : Mode)
  | data (mode : Mode)
  deriving DecidableEq, Repr

namespace Category

/-- The name of a category, which is also its directive without the point. -/
def name : Category → ByteString
  | text .user => "text"
  | data .user => "data"
  | text .kernel => "ktext"
  | data .kernel => "kdata"

/-- Does a segment of the category hold instructions? -/
def isText : Category → Bool
  | text _ => true
  | data _ => false

/-- The categories in the order in which reports list them. -/
def all : List Category := [text .user, data .user, text .kernel, data .kernel]

/-- The name of a category that may be unknown. -/
def nameOf (k : Option Category) : ByteString := (k.map name).getD "unknown"

/-- Does a category that may be unknown hold instructions? -/
def holdsText (k : Option Category) : Bool := k.any isText

end Category

/-- A program, by category. -/
structure Program where
  userText : List (Segment Instruction) := []
  userData : List (Segment Payload) := []
  kernelText : List (Segment Instruction) := []
  kernelData : List (Segment Payload) := []
  deriving DecidableEq, Repr

namespace Program

/-- The text segments of a mode. -/
def text (p : Program) : Mode → List (Segment Instruction)
  | .user => p.userText
  | .kernel => p.kernelText

/-- The data segments of a mode. -/
def data (p : Program) : Mode → List (Segment Payload)
  | .user => p.userData
  | .kernel => p.kernelData

/-- All text segments, the user's first. -/
def allText (p : Program) : List (Segment Instruction) := p.userText ++ p.kernelText

/-- All data segments, the user's first. -/
def allData (p : Program) : List (Segment Payload) := p.userData ++ p.kernelData

/-- Changes the text segments of a mode. -/
def mapText (f : List (Segment Instruction) → List (Segment Instruction)) (m : Mode)
    (p : Program) : Program :=
  match m with
  | .user => { p with userText := f p.userText }
  | .kernel => { p with kernelText := f p.kernelText }

/-- Changes the data segments of a mode. -/
def mapData (f : List (Segment Payload) → List (Segment Payload)) (m : Mode)
    (p : Program) : Program :=
  match m with
  | .user => { p with userData := f p.userData }
  | .kernel => { p with kernelData := f p.kernelData }

/-- Opens a new segment of a category, without entries. -/
def openSegment (k : Category) (start : Option UInt32) (p : Program) : Program :=
  match k with
  | .text m => p.mapText (· ++ [{ start := some { address := start } }]) m
  | .data m => p.mapData (· ++ [{ start := some { address := start } }]) m

/-- Puts an instruction at the end of the last text segment of a mode. -/
def addText (m : Mode) (e : Entry Instruction) (p : Program) : Program :=
  p.mapText (addToLast e) m

/-- Puts a payload at the end of the last data segment of a mode. -/
def addData (m : Mode) (e : Entry Payload) (p : Program) : Program :=
  p.mapData (addToLast e) m

end Program

end MipsAssembler
