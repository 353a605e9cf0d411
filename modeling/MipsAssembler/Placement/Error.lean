import MipsAssembler.ErrorKind
import MipsAssembler.Placement.Region
import MipsAssembler.Placement.Request

/-!
# Errors of placement

A request may fail because no free memory can hold it; every other error says that an extent, a
request or a window is malformed.
-/

namespace MipsAssembler

open ByteString

/-- Why a placement fails. -/
inductive PlacementError where
  | noRoomFor (lower upper : UInt32) (free : List Extent)
  | noRoom (size : UInt32) (free : List Extent)
  | pastEnd (request : Request)
  | belowZero (request : Request)
  | inverted (lower upper : UInt32)
  | cannotShrink (extent : Extent) (count : UInt32)
  | growthWraps (extent : Extent) (count : UInt32)
  | growthHole (extent next : Extent)
  | growthBlocked (extent next : Extent)
  | growthShort (extent : Extent) (count : UInt32)
  | insertInUse (extent block : Extent)
  | insertOutside (extent block : Extent)
  | mergeHole (extent next : Extent)
  | mergeInUse (extent next : Extent)
  | noExtents
  | wrongSpan (extents : List Extent) (low high : UInt32)
  | invertedExtent (extent : Extent)
  | notContiguous (extent next : Extent)
  | zeroSize (request : Request)
  | wrongSize (request : Request)
  | noBound (request : Request)
  | invertedWindow (low high : UInt32)
  | emptyRegion (region : Region)
  | regionAtZero (region : Region)
  deriving DecidableEq, Repr

namespace PlacementError

/-- The kind of an error. -/
def kind : PlacementError → ErrorKind
  | noRoomFor .. | noRoom .. | pastEnd _ | belowZero _ => .noFit
  | _ => .invariant

/-- The detail of an error. -/
def detail : PlacementError → ByteString
  | noRoomFor lower upper free =>
    "could not find placement for " ++ Extent.bounds lower upper ++ " in " ++
      Extent.renderList free
  | noRoom size free =>
    "could not find placement for " ++ natural size.toNat ++ " bytes in " ++
      Extent.renderList free
  | pastEnd request => request.render ++ " runs past the end of the address space"
  | belowZero request => request.render ++ " runs below address zero"
  | inverted lower upper => "lower " ++ hexWord lower ++ " > upper " ++ hexWord upper
  | cannotShrink extent count =>
    "cannot shrink " ++ extent.render ++ " by " ++ natural count.toNat ++ " bytes"
  | growthWraps extent count =>
    "growing " ++ extent.render ++ " by " ++ natural count.toNat ++
      " bytes wraps the address space"
  | growthHole extent next => "hole between " ++ extent.render ++ " and " ++ next.render
  | growthBlocked extent next =>
    "tried to grow " ++ extent.render ++ " into non-free " ++ next.render
  | growthShort extent count =>
    "not enough free space after " ++ extent.render ++ " to grow by " ++ natural count.toNat ++
      " bytes"
  | insertInUse extent block =>
    "tried to insert into non-free " ++ extent.render ++ " <- " ++ block.render
  | insertOutside extent block =>
    "tried to insert out of bounds " ++ extent.render ++ " <- " ++ block.render
  | mergeHole extent next => "is there a hole? " ++ extent.render ++ " <-> " ++ next.render
  | mergeInUse extent next =>
    "cannot merge non-free ranges " ++ extent.render ++ " <-> " ++ next.render
  | noExtents => "empty range list"
  | wrongSpan extents low high =>
    Extent.renderList extents ++ " does not span " ++ Extent.bounds low high
  | invertedExtent extent => "inverted range " ++ extent.render
  | notContiguous extent next =>
    extent.render ++ " and " ++ next.render ++ " are not contiguous"
  | zeroSize request => "zero sized request " ++ request.render
  | wrongSize request =>
    "size " ++ natural request.size.toNat ++ " does not match address range " ++ request.render
  | noBound request => request.render ++ " has no fixed bound"
  | invertedWindow low high => "window lower " ++ hexWord low ++ " > upper " ++ hexWord high
  | emptyRegion region => "region " ++ region.render ++ " is empty"
  | regionAtZero region => "region " ++ region.render ++ " starts at address 0"

/-- The wording of an error. -/
def message (e : PlacementError) : ByteString :=
  let cause : ByteString :=
    if e.kind = .noFit then "no free memory range fits" else "memory range invariant violated"
  cause ++ ": " ++ e.detail

end PlacementError

/-- Checks that a region holds an address. -/
def Region.check (r : Region) : Except PlacementError Unit :=
  if r.isEmpty then .error (.emptyRegion r) else .ok ()

end MipsAssembler
