import MipsAssembler.ByteString.Numeral

/-!
# Extents

An extent is a stretch of addresses, both bounds included, that is free or in use, and may belong to
the owner of a placement request. This module has the type and its text; the operations that cut,
join and fill extents are in `MipsAssembler.Placement.Tiling`.
-/

namespace MipsAssembler

open ByteString

/-- Whether an extent is in use. -/
inductive Status where
  | free
  | allocated
  /-- In use for a purpose that has no name; texts show it like a free one. -/
  | reserved (code : UInt8)
  deriving DecidableEq, Repr

/-- The name of a status. -/
def Status.name : Status → ByteString
  | allocated => "allocated"
  | _ => "free"

/-- A stretch of addresses from `lower` to `upper`. -/
structure Extent where
  lower : UInt32
  upper : UInt32
  status : Status := .free
  owner : Option Int := none
  deriving DecidableEq, Repr

namespace Extent

/-- Is the extent free? -/
def isFree (e : Extent) : Bool := e.status = .free

/-- The number of addresses, which needs more than 32 bits for the whole address space. -/
def size (e : Extent) : UInt64 := e.upper.toUInt64 - e.lower.toUInt64 + 1

/-- Does the extent hold all addresses from `lower` to `upper`? -/
def contains (e : Extent) (lower upper : UInt32) : Bool := e.lower ≤ lower && upper ≤ e.upper

/-- The bounds of an extent. -/
def bounds (lower upper : UInt32) : ByteString :=
  "[" ++ hexWord lower ++ ", " ++ hexWord upper ++ "]"

/-- The text of an extent. -/
def render (e : Extent) : ByteString :=
  bounds e.lower e.upper ++ " " ++ e.status.name ++
    match e.owner with
    | some n => " #" ++ decimal n
    | none => []

/-- The text of a list of extents. -/
def renderList (es : List Extent) : ByteString := "\x7b" ++ join ", " (es.map render) ++ "\x7d"

end Extent

end MipsAssembler
