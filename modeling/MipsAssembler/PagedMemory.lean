import MipsAssembler.ByteString.Numeral

/-!
# Memory images

A memory image is a sparse memory in pages of 4096 bytes, each under the upper 20 bits of its
addresses. A page knows where it starts, and has a bit for each of its words that says whether
anything was written to it. Words are little-endian, and a byte that was never written in a word that
was is zero.

Pages come into being when something is written to them, and are kept in that order; `pageKeys` sorts
them.
-/

namespace MipsAssembler

open ByteString

/-- The number of words of a page. -/
abbrev pageWords : Nat := 1024

/-- An address that is not that of a word. -/
structure UnalignedStore where
  address : UInt32
  deriving DecidableEq, Repr

/-- The wording of the error. -/
def UnalignedStore.message (e : UnalignedStore) : ByteString :=
  "unaligned word write at " ++ hexWord e.address

namespace PagedMemory

/-- The key of an address's page. -/
def pageOf (a : UInt32) : UInt32 := a / 0x1000

/-- The place of an address's word in its page. -/
def slotOf (a : UInt32) : Fin pageWords := Fin.ofNat pageWords (a.toNat / 4)

/-- `word` with its byte number `i` replaced by `b`: the old byte is masked out. -/
def setByte (word : UInt32) (i : Nat) (b : UInt8) : UInt32 :=
  let shift := UInt32.ofNat (8 * i)
  (word &&& ~~~(0xFF <<< shift)) ||| b.toUInt32 <<< shift

end PagedMemory

open PagedMemory

/-! ## Pages -/

/-- A page of memory. -/
structure Page where
  /-- The address of its first byte. -/
  start : UInt32
  words : Vector UInt32 pageWords
  /-- A bit for each word, 32 to an entry. It is set when the word is written. -/
  initialized : Vector UInt32 32

namespace Page

/-- The page of a key before anything is written to it. -/
def blank (key : UInt32) : Page where
  start := key * 0x1000
  words := Vector.replicate pageWords 0
  initialized := Vector.replicate 32 0

/-- The entry that has the bit of a word. -/
def bitEntry (slot : Fin pageWords) : Fin 32 := ⟨slot / 32, Nat.div_lt_of_lt_mul slot.isLt⟩

/-- The number of the bit of a word in its entry. -/
def bitNumber (slot : Fin pageWords) : UInt32 := UInt32.ofNat (slot % 32)

/-- Sets the bit of the word that holds the address. -/
def mark (p : Page) (a : UInt32) : Page :=
  let i := bitEntry (slotOf a)
  { p with initialized := p.initialized.set i (p.initialized.get i ||| 1 <<< bitNumber (slotOf a)) }

/-- Is the bit of the word that holds the address set? -/
def isInitialized (p : Page) (a : UInt32) : Bool :=
  (p.initialized.get (bitEntry (slotOf a)) >>> bitNumber (slotOf a)) &&& 1 = 1

/-- Changes the word that holds the address, and sets its bit. -/
def update (p : Page) (a : UInt32) (f : UInt32 → UInt32) : Page :=
  { p with words := p.words.set (slotOf a) (f (p.words.get (slotOf a))) }.mark a

/-- The words whose bits are set, and their addresses. -/
def entries (p : Page) : List (UInt32 × UInt32) :=
  p.words.toList.zipIdx.filterMap fun (word, i) =>
    let a := p.start + UInt32.ofNat i * 4
    if p.isInitialized a then some (a, word) else none

end Page

/-! ## Memories -/

/-- A sparse memory: pages and their keys, in the order in which they came into being. -/
structure PagedMemory where
  pages : List (UInt32 × Page) := []

namespace PagedMemory

/-- Changes the page of a key, which comes into being if there is none. -/
def updatePage (key : UInt32) (f : Page → Page) : List (UInt32 × Page) → List (UInt32 × Page)
  | [] => [(key, f (.blank key))]
  | (k, p) :: rest => if k = key then (k, f p) :: rest else (k, p) :: updatePage key f rest

/-- The page of a key. -/
def page? (m : PagedMemory) (key : UInt32) : Option Page := m.pages.lookup key

/-- The word that holds the address, if it was ever written. -/
def loadWord? (m : PagedMemory) (a : UInt32) : Option UInt32 :=
  match m.page? (pageOf a) with
  | none => none
  | some p => if p.isInitialized a then some (p.words.get (slotOf a)) else none

/-- Changes the word that holds the address. -/
def updateWord (m : PagedMemory) (a : UInt32) (f : UInt32 → UInt32) : PagedMemory :=
  ⟨updatePage (pageOf a) (·.update a f) m.pages⟩

/-- Writes one byte and leaves the other bytes of its word alone. -/
def storeByte (m : PagedMemory) (a : UInt32) (b : UInt8) : PagedMemory :=
  m.updateWord a (setByte · (a.toNat % 4) b)

/-- Writes bytes from an address on; the addresses wrap around. -/
def storeBytes (m : PagedMemory) (a : UInt32) : ByteString → PagedMemory
  | [] => m
  | b :: bs => (m.storeByte a b).storeBytes (a + 1) bs

/-- Writes a word at the address of a word. -/
def storeWord (a value : UInt32) : EStateM UnalignedStore PagedMemory Unit := do
  if a % 4 ≠ 0 then throw ⟨a⟩
  modify fun m => m.updateWord a fun _ => value

/-- The keys of the pages in ascending order. -/
def pageKeys (m : PagedMemory) : List UInt32 := (m.pages.map Prod.fst).mergeSort (· ≤ ·)

/-- The written words and their addresses, page by page. -/
def entries (m : PagedMemory) : List (UInt32 × UInt32) :=
  m.pageKeys.flatMap fun key => ((m.page? key).map Page.entries).getD []

/-- The image as text, one line a word. -/
def dump (m : PagedMemory) : ByteString :=
  m.entries.flatMap fun (a, w) => line (hexWord a ++ ": " ++ hexWord w)

end PagedMemory

end MipsAssembler
