import MipsAssembler.Placement.Extent

/-!
# Placement requests

A request asks for a number of bytes, at a given start, at a given end, or anywhere.
-/

namespace MipsAssembler

open ByteString

/-- A request for `size` bytes of memory, with the bounds that are given. -/
structure Request where
  lower : Option UInt32 := none
  upper : Option UInt32 := none
  size : UInt32
  owner : Option Int := none
  deriving DecidableEq, Repr

namespace Request

/-- A request for exactly the addresses from `lower` to `upper`. -/
def fixed (lower upper : UInt32) (owner : Option Int) : Request :=
  { lower := some lower, upper := some upper, size := upper - lower + 1, owner }

/-- A request for `size` bytes from `lower` on. -/
def startingAt (lower size : UInt32) (owner : Option Int) : Request :=
  { lower := some lower, size, owner }

/-- A request for `size` bytes up to `upper`. -/
def endingAt (upper size : UInt32) (owner : Option Int) : Request :=
  { upper := some upper, size, owner }

/-- A request for `size` bytes anywhere. -/
def anywhere (size : UInt32) (owner : Option Int) : Request := { size, owner }

/-- Is neither bound given? -/
def isFloating (r : Request) : Bool := r.lower.isNone && r.upper.isNone

/-- The text of a request. -/
def render (r : Request) : ByteString :=
  let bytes : ByteString := natural r.size.toNat ++ " bytes"
  match r.lower, r.upper with
  | some lower, some upper => Extent.bounds lower upper ++ " (" ++ bytes ++ ")"
  | some lower, none => bytes ++ " at " ++ hexWord lower
  | none, some upper => bytes ++ " ending at " ++ hexWord upper
  | none, none => bytes

end Request

end MipsAssembler
