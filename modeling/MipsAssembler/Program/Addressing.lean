import MipsAssembler.Placement.FirstFit
import MipsAssembler.Program.Error

/-!
# Addresses of entries

The segments of a category are placed in its window, their entries follow one another from the start
of the segment on, and the labels of an entry get its address.

* `placeSegments` gives each segment its start. Segments with an address keep it, the others go
  where they fit first. A segment without bytes takes no space.
* `Segment.assign` gives the entries of a segment their addresses.
* `labelActions` lists what a category does to the symbol table, in order; `settle` does it.
-/

namespace MipsAssembler

open ByteString

/-! ## Segments -/

/-- The multiple of bytes that a segment is filled up to: words for instructions, double words for
data. -/
def segmentAlign (k : Category) : UInt32 := if k.isText then 4 else 8

/-- The bytes that a segment takes in its window. -/
def segmentSpace {α : Type} [Sized α] (k : Category) (s : Segment α) : UInt32 :=
  roundUp s.size (segmentAlign k)

/-- What a segment asks for, with its number as owner; nothing if it has no bytes. -/
def segmentRequest {α : Type} [Sized α] (k : Category) (s : Segment α) (index : Nat) :
    Except AssemblyError (Option Request) :=
  let space := segmentSpace k s
  if space = 0 then .ok none
  else match addressOf? s.start with
    | none => .ok (some (.anywhere space (some index)))
    | some start =>
      if k.isText ∧ start % 4 ≠ 0 then .error (.misaligned k start)
      else .ok (some (.startingAt start space (some index)))

/-- The division of a window among requests; without requests it is left alone. -/
def divideWindow (k : Category) (window : Region) (requests : List Request) :
    Except AssemblyError (List Extent) :=
  if requests = [] then .ok []
  else match Placement.layout requests window.start window.last with
    | .ok extents => .ok extents
    | .error e => .error (.layout k window e)

/-- The extent of segment number `index`. -/
def extentOf? (extents : List Extent) (index : Nat) : Option Extent :=
  extents.find? fun e => e.status = .allocated ∧ e.owner = some (index : Int)

/-- A segment at its place: where its extent begins or, without an extent, where it was, or else at
the start of the window. -/
def Segment.settleStart {α : Type} (window : Region) (extents : List Extent) (s : Segment α)
    (index : Nat) : Segment α :=
  match extentOf? extents index, addressOf? s.start with
  | some e, _ => { s with start := placeAt e.lower s.start }
  | none, some _ => s
  | none, none => { s with start := placeAt window.start s.start }

/-- Places the segments of a category in its window. -/
def placeSegments {α : Type} [Sized α] (k : Category) (window : Region)
    (segments : List (Segment α)) : Except AssemblyError (List (Segment α)) := do
  let requests ← segments.zipIdx.mapM fun (s, i) => segmentRequest k s i
  let extents ← divideWindow k window (requests.filterMap id)
  return segments.zipIdx.map fun (s, i) => s.settleStart window extents i

/-! ## Entries -/

/-- The address where a segment starts; zero if it has none. -/
def Segment.startAddress {α : Type} (s : Segment α) : UInt32 := (addressOf? s.start).getD 0

/-- Entries with their addresses, the first at `a`. -/
def assignFrom {α : Type} [Sized α] : Nat → List (Entry α) → List (Entry α)
  | _, [] => []
  | a, e :: rest =>
    { e with place := placeAt (UInt32.ofNat a) e.place } ::
      assignFrom (a + (byteSize e.item).toNat) rest

/-- A segment whose entries have their addresses. -/
def Segment.assign {α : Type} [Sized α] (s : Segment α) : Segment α :=
  { s with entries := assignFrom s.startAddress.toNat s.entries }

/-! ## Labels -/

/-- One step on the symbol table: the definition of a label that stands in a line, or the discovery
that an entry does not fit. -/
inductive LabelAction where
  | define (name : ByteString) (address : UInt32) (line : Int)
  | fail (error : AssemblyError)
  deriving DecidableEq, Repr

/-- Does a step on the table. -/
def LabelAction.perform : LabelAction → EStateM AssemblyError SymbolTable Unit
  | define name address line =>
    (SymbolTable.defineSplit name address).adaptExcept fun e => .entry line (.redefinition e)
  | fail error => throw error

/-- The table after a step that succeeds. -/
def LabelAction.apply (t : SymbolTable) (action : LabelAction) :
    Except AssemblyError SymbolTable :=
  match action.perform t with
  | .ok _ t' => .ok t'
  | .error e _ => .error e

/-- The steps of entries from the address `a` on in a segment that starts at `start`. They end with
the first entry that runs past the window. -/
def actionsFrom {α : Type} [Sized α] (k : Category) (window : Region) (start : UInt32) :
    Nat → List (Entry α) → List LabelAction
  | _, [] => []
  | a, e :: rest =>
    let next := a + (byteSize e.item).toNat
    if window.stop.toNat < next then [.fail (.entry e.line (.overflow k.isText start window))]
    else (labelsOf e.place).map (.define · (UInt32.ofNat a) e.line) ++
      actionsFrom k window start next rest

/-- The steps of the placed segments of a category. -/
def labelActions {α : Type} [Sized α] (k : Category) (window : Region)
    (segments : List (Segment α)) : List LabelAction :=
  segments.flatMap fun s => actionsFrom k window s.startAddress s.startAddress.toNat s.entries

/-- Places a category, records its labels and gives its entries their addresses. -/
def settle {α : Type} [Sized α] (k : Category) (window : Region) (segments : List (Segment α))
    (t : SymbolTable) : Except AssemblyError (List (Segment α) × SymbolTable) := do
  let placed ← placeSegments k window segments
  let table ← (labelActions k window placed).foldlM LabelAction.apply t
  return (placed.map Segment.assign, table)

end MipsAssembler
