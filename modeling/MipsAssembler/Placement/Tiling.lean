import MipsAssembler.Placement.Error

/-!
# Tilings

Operations on extents and on lists of extents in address order. `Extent.shrink`, `Extent.grow`,
`Extent.insert` and `Extent.merge` cut and join neighbouring extents in such a way that they go on
covering the same addresses; `Tiling.check` decides whether a list covers a window exactly.
-/

namespace MipsAssembler

namespace Extent

/-- An extent with the given bounds, in the right order. -/
def ofBounds (lower upper : UInt32) (status : Status) (owner : Option Int) :
    Except PlacementError Extent :=
  if upper < lower then .error (.inverted lower upper) else .ok { lower, upper, status, owner }

/-- Splits the last `n` bytes off as a free extent. At least one byte must stay. -/
def shrink (e : Extent) (n : UInt32) : Except PlacementError (Extent × Extent) :=
  if n = 0 ∨ e.size ≤ n.toUInt64 then .error (.cannotShrink e n)
  else .ok ({ e with upper := e.upper - n }, { lower := e.upper - n + 1, upper := e.upper })

/-- What is left of the extents after `e` once all up to the address `upper` is taken from them;
`covered` is the last address that is taken. All of it must be free and without holes. -/
def consume (e : Extent) (n upper : UInt32) :
    UInt32 → List Extent → Except PlacementError (List Extent)
  | covered, [] => if covered < upper then .error (.growthShort e n) else .ok []
  | covered, next :: rest =>
    if upper ≤ covered then .ok (next :: rest)
    else if next.lower ≠ covered + 1 then .error (.growthHole e next)
    else if !next.isFree then .error (.growthBlocked e next)
    else if upper < next.upper then .ok (next :: rest)
    else consume e n upper next.upper rest

/-- Moves the start of the first of some extents behind `upper`, if it is not there already. -/
def startAfter (upper : UInt32) : List Extent → List Extent
  | [] => []
  | next :: rest => (if next.lower ≤ upper then { next with lower := upper + 1 } else next) :: rest

/-- Extends `e` by `n` bytes at the cost of the free extents that follow it. What is given back is the
extent and what is left of the others, together with the error if there is one. -/
def grow (e : Extent) (next : List Extent) (n : UInt32) :
    EStateM.Result PlacementError (Extent × List Extent) Unit :=
  if n = 0 then .ok () (e, next)
  else if 0xFFFFFFFF < e.upper.toNat + n.toNat then .error (.growthWraps e n) (e, next)
  else
    let upper := e.upper + n
    match consume e n upper e.upper next with
    | .ok rest => .ok () ({ e with upper }, startAfter upper rest)
    | .error err => .error err (e, next)

/-- The extents that replace the free extent `e` when `block` is put into it: what is free before
it, the block, and what is free after it. -/
def insert (e block : Extent) : Except PlacementError (List Extent) :=
  if !e.isFree then .error (.insertInUse e block)
  else if block.upper < block.lower then .error (.inverted block.lower block.upper)
  else if !e.contains block.lower block.upper then .error (.insertOutside e block)
  else
    let before : List Extent :=
      if e.lower < block.lower then [{ lower := e.lower, upper := block.lower - 1 }] else []
    let after : List Extent :=
      if block.upper < e.upper then [{ lower := block.upper + 1, upper := e.upper }] else []
    .ok (before ++ [block] ++ after)

/-- Joins two free extents, the second directly after the first. -/
def merge (e next : Extent) : Except PlacementError Extent :=
  if e.upper.toNat + 1 ≠ next.lower.toNat then .error (.mergeHole e next)
  else if !e.isFree || !next.isFree then .error (.mergeInUse e next)
  else .ok { e with upper := next.upper }

end Extent

namespace Tiling

/-- The free extents of a list. -/
def free (es : List Extent) : List Extent := es.filter Extent.isFree

/-- Joins free neighbours; `e` stands before the list. -/
def coalesceFrom (e : Extent) : List Extent → Except PlacementError (List Extent)
  | [] => .ok [e]
  | next :: rest =>
    if e.isFree && next.isFree then
      match e.merge next with
      | .ok joined => coalesceFrom joined rest
      | .error err => .error err
    else (coalesceFrom next rest).map (e :: ·)

/-- Joins all free neighbours of a list. -/
def coalesce : List Extent → Except PlacementError (List Extent)
  | [] => .ok []
  | e :: rest => coalesceFrom e rest

/-- Checks that `e` and all extents after it have their bounds in order and follow one another
without holes. -/
def checkFrom (e : Extent) : List Extent → Except PlacementError Unit
  | [] => if e.upper < e.lower then .error (.invertedExtent e) else .ok ()
  | next :: rest =>
    if e.upper < e.lower then .error (.invertedExtent e)
    else if next.upper < next.lower then .error (.invertedExtent next)
    else if e.upper.toNat + 1 ≠ next.lower.toNat then .error (.notContiguous e next)
    else checkFrom next rest

/-- Checks that a list covers the addresses from `low` to `high` exactly. -/
def check (es : List Extent) (low high : UInt32) : Except PlacementError Unit :=
  match es with
  | [] => .error .noExtents
  | e :: rest =>
    if e.lower ≠ low ∨ ((e :: rest).getLast?.map (·.upper)) ≠ some high then
      .error (.wrongSpan es low high)
    else checkFrom e rest

end Tiling

end MipsAssembler
