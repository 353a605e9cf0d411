import MipsAssembler.Placement.Tiling

/-!
# First fit

`layout` divides a window into free and allocated extents so that every request has its place.
Requests with a given bound come first, in their order; then those that may lie anywhere go, in
their order, to the low end of the first free extent that is large enough.
-/

namespace MipsAssembler

/-- The bounds of a request that has at least one of them. -/
def Request.span (r : Request) : Except PlacementError (UInt32 × UInt32) :=
  if r.size = 0 then .error (.zeroSize r)
  else match r.lower, r.upper with
    | some lower, some upper =>
      if upper < lower then .error (.inverted lower upper)
      else if upper.toNat - lower.toNat + 1 ≠ r.size.toNat then .error (.wrongSize r)
      else .ok (lower, upper)
    | some lower, none =>
      if 0xFFFFFFFF < lower.toNat + r.size.toNat - 1 then .error (.pastEnd r)
      else .ok (lower, lower + r.size - 1)
    | none, some upper =>
      if upper < r.size - 1 then .error (.belowZero r)
      else .ok (upper + 1 - r.size, upper)
    | none, none => .error (.noBound r)

namespace Placement

/-- Puts a block into the first extent for which `choose` has one; `none` if it has none for any. -/
def insertFirst (choose : Extent → Option Extent) :
    List Extent → Except PlacementError (Option (List Extent))
  | [] => .ok none
  | e :: rest =>
    match choose e with
    | some block => (e.insert block).map fun parts => some (parts ++ rest)
    | none => (insertFirst choose rest).map fun found => found.map (e :: ·)

/-- Places the addresses from `lower` to `upper`. -/
def placeSpan (memory : List Extent) (lower upper : UInt32) (owner : Option Int) :
    Except PlacementError (List Extent) := do
  let choose (e : Extent) : Option Extent :=
    if e.isFree && e.contains lower upper then
      some { lower, upper, status := .allocated, owner }
    else none
  match ← insertFirst choose memory with
  | some placed => return placed
  | none => .error (.noRoomFor lower upper (Tiling.free memory))

/-- Places a request with a given bound. -/
def placeBound (memory : List Extent) (r : Request) : Except PlacementError (List Extent) := do
  let (lower, upper) ← r.span
  placeSpan memory lower upper r.owner

/-- Places a request that may lie anywhere. -/
def placeFloating (memory : List Extent) (r : Request) : Except PlacementError (List Extent) := do
  let choose (e : Extent) : Option Extent :=
    if e.isFree && r.size.toUInt64 ≤ e.size then
      some { lower := e.lower, upper := e.lower + r.size - 1, status := .allocated,
             owner := r.owner }
    else none
  if r.size = 0 then .error (.zeroSize r)
  else match ← insertFirst choose memory with
    | some placed => return placed
    | none => .error (.noRoom r.size (Tiling.free memory))

/-- Divides the window from `low` to `high` among the requests. -/
def layout (requests : List Request) (low high : UInt32) :
    Except PlacementError (List Extent) :=
  if high < low then .error (.invertedWindow low high)
  else do
    let bound ← (requests.filter (!·.isFloating)).foldlM placeBound [{ lower := low, upper := high }]
    let memory ← (requests.filter (·.isFloating)).foldlM placeFloating bound
    Tiling.check memory low high
    return memory

end Placement

end MipsAssembler
