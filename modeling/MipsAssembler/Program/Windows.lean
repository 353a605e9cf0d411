import MipsAssembler.Placement.Error
import MipsAssembler.Program.Basic

/-!
# Windows

Each category of segments has a region of the address space, its window, in which its segments are
placed.
-/

namespace MipsAssembler

/-- The windows of the four categories. -/
structure Windows where
  userText : Region := .text
  userData : Region := .staticData
  kernelText : Region := .kernelText
  kernelData : Region := .kernelData
  deriving DecidableEq, Repr

namespace Windows

/-- The window of a category. -/
def region (w : Windows) : Category → Region
  | .text .user => w.userText
  | .data .user => w.userData
  | .text .kernel => w.kernelText
  | .data .kernel => w.kernelData

/-- The window of a category that may be unknown: the user's text serves for any other. -/
def regionOf (w : Windows) (k : Option Category) : Region := w.region (k.getD (.text .user))

/-- Checks a window: it is not empty, and it does not start at zero, for an entry at zero would have
no address. -/
def checkWindow (r : Region) : Except PlacementError Unit := do
  r.check
  if r.start = 0 then .error (.regionAtZero r) else .ok ()

/-- Checks all windows. -/
def check (w : Windows) : Except PlacementError Unit :=
  Category.all.forM fun k => checkWindow (w.region k)

end Windows

end MipsAssembler
