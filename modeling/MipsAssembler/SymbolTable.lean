import MipsAssembler.Source.Line
import Std.Data.ExtTreeMap

/-!
# Symbol tables

A symbol table gives names their addresses. A name is defined once. With a label, the two halves of
its address are defined as well, under the label's name with an ending each.

* `define` and `defineSplit` add names to a table in place, `lookup` finds them.
* `toList` lists the table in the order of the names, `render` in the order of the addresses.
-/

namespace MipsAssembler

open ByteString

/-- Names and their addresses. -/
structure SymbolTable where
  symbols : Std.ExtTreeMap ByteString UInt32 := ∅

/-- A name that is already defined. -/
structure Redefinition where
  name : ByteString
  deriving DecidableEq, Repr

/-- The wording of the error. -/
def Redefinition.message (e : Redefinition) : ByteString := "redefinition of label: " ++ e.name

namespace SymbolTable

/-- The address of a name. -/
def lookup (t : SymbolTable) (name : ByteString) : Option UInt32 := t.symbols[name]?

/-- Is the name defined? -/
def contains (t : SymbolTable) (name : ByteString) : Bool := t.symbols.contains name

/-- Gives a name an address, whether it has one or not. -/
def insert (t : SymbolTable) (name : ByteString) (address : UInt32) : SymbolTable :=
  ⟨t.symbols.insert name address⟩

/-- Fails on behalf of a label if one of the names is defined. -/
def requireNew (label : ByteString) (names : List ByteString) :
    EStateM Redefinition SymbolTable Unit :=
  names.forM fun name => do
    if (← get).contains name then throw ⟨label⟩

/-- Defines a name. -/
def define (name : ByteString) (address : UInt32) : EStateM Redefinition SymbolTable Unit := do
  requireNew name [name]
  modify (·.insert name address)

/-- Defines a label and the halves of its address. -/
def defineSplit (name : ByteString) (address : UInt32) :
    EStateM Redefinition SymbolTable Unit := do
  let upper := name ++ upperEnding
  let lower := name ++ lowerEnding
  requireNew name [name, upper, lower]
  modify (·.insert upper (address / 0x10000))
  modify (·.insert lower (address % 0x10000))
  modify (·.insert name address)

/-- The number of names. -/
def size (t : SymbolTable) : Nat := t.symbols.size

/-- The names and their addresses, in the order of the names. -/
def toList (t : SymbolTable) : List (ByteString × UInt32) := t.symbols.toList

/-- The names in their order. -/
def names (t : SymbolTable) : List ByteString := t.symbols.keys

/-- Does `a` come before `b` in the order of the addresses, or of the names at one address? -/
def comesBefore (a b : ByteString × UInt32) : Bool :=
  a.2 < b.2 || (a.2 == b.2 && (compare a.1 b.1).isLE)

/-- The names that a report shows; the halves of addresses only on demand. -/
def shownSymbols (t : SymbolTable) (split : Bool) : List (ByteString × UInt32) :=
  (t.toList.filter fun (name, _) => split || !isHalf name).mergeSort comesBefore

/-- The table as text, one line a name in the order of the addresses. -/
def render (t : SymbolTable) (split : Bool) : ByteString :=
  (t.shownSymbols split).flatMap fun (name, address) => line (hexWord address ++ "  " ++ name)

end SymbolTable

end MipsAssembler
