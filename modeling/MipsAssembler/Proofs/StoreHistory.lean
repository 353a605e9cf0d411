import MipsAssembler.Proofs.FlatMemory
import MipsAssembler.Proofs.Outcome
import Mathlib.Tactic.IntervalCases

/-!
# Histories of stores

A memory is written by stores of single bytes, of runs of bytes and of words. What it holds after
any number of them depends on one thing only, the byte that was stored last at each address.

* `Store.cells` lists the bytes that a store writes, and `lastByte?` reads the flat memory of a
  history off these lists alone.
* One store keeps the paged memory and the flat one in step (`Refines.next`), and so does a history
  (`replay_refines`).
* `replay_holds_lastBytes` is what can be read in the end: a word is there if one of its four bytes is,
  and the others are zero.
-/

namespace MipsAssembler

open PagedMemory Outcome

/-- A call that writes to a memory. -/
inductive Store where
  | byte (address : UInt32) (value : UInt8)
  /-- Bytes from an address on; the addresses wrap around. -/
  | bytes (address : UInt32) (values : ByteString)
  | word (address value : UInt32)
  deriving DecidableEq, Repr

namespace Store

/-- Does a store. -/
def perform : Store → EStateM UnalignedStore PagedMemory Unit
  | byte a b => modify (·.storeByte a b)
  | bytes a bs => modify (·.storeBytes a bs)
  | word a value => storeWord a value

/-- The memory that a store leaves, whether it succeeds or not. -/
def next (m : PagedMemory) (s : Store) : PagedMemory := endState (s.perform m)

/-- A fresh memory after a history of stores. -/
def replay (history : List Store) : PagedMemory := history.foldl next {}

/-! ## The last byte at an address -/

/-- Bytes and their addresses, from an address on. -/
def cellsFrom (a : UInt32) (bs : ByteString) : List (UInt32 × UInt8) :=
  bs.zipIdx.map fun (b, i) => (a + UInt32.ofNat i, b)

/-- The bytes that a store writes and their addresses, in order. A word that is not stored at the
address of a word writes none. -/
def cells : Store → List (UInt32 × UInt8)
  | byte a b => [(a, b)]
  | bytes a bs => cellsFrom a bs
  | word a value => if a.toNat % 4 = 0 then cellsFrom a ((List.range 4).map (byteOf value)) else []

/-- The byte that a history stored last at an address. -/
def lastByte? (history : List Store) : FlatMemory :=
  fun a => (history.flatMap cells).reverse.lookup a

end Store

namespace FlatMemory

/-- Writes single bytes one after the other. -/
def write (M : FlatMemory) (cells : List (UInt32 × UInt8)) : FlatMemory :=
  cells.foldl (fun M c => M.storeByte c.1 c.2) M

theorem write_append (M : FlatMemory) (cs ds : List (UInt32 × UInt8)) :
    M.write (cs ++ ds) = (M.write cs).write ds := List.foldl_append

/-- The last byte that is written at an address counts. -/
theorem write_apply (M : FlatMemory) (cells : List (UInt32 × UInt8)) (x : UInt32) :
    M.write cells x = (cells.reverse.lookup x).or (M x) := by
  induction cells generalizing M with
  | nil => rfl
  | cons c cells ih =>
    obtain ⟨a, b⟩ := c
    rw [write, List.foldl_cons, ← write, ih, List.reverse_cons, List.lookup_append, Option.or_assoc]
    congr 1
    by_cases hx : x = a
    · subst hx
      simp [storeByte]
    · simp [storeByte, List.lookup_cons, Function.update_of_ne hx, beq_false_of_ne hx]

/-- A run of bytes is written byte by byte. -/
theorem storeBytes_eq_write (M : FlatMemory) (a : UInt32) (bs : ByteString) :
    M.storeBytes a bs = M.write (Store.cellsFrom a bs) := by
  induction bs generalizing M a with
  | nil => rfl
  | cons b bs ih =>
    have hshift : Store.cellsFrom a (b :: bs) = (a, b) :: Store.cellsFrom (a + 1) bs := by
      simp only [Store.cellsFrom, List.zipIdx_cons, List.map_cons, List.zipIdx_succ, List.map_map]
      refine congrArg₂ List.cons (by simp) (List.map_congr_left fun c _ => ?_)
      simp [UInt32.ofNat_add, UInt32.add_comm, UInt32.add_assoc]
    rw [storeBytes, ih, hshift]
    rfl

end FlatMemory

/-! ## Runs -/

namespace Store

theorem next_word (m : PagedMemory) (a value : UInt32) :
    (word a value).next m = if a.toNat % 4 = 0 then m.updateWord a fun _ => value else m := by
  rw [next, perform, storeWord_eq, apply_ite endState]
  rfl

end Store

namespace PagedMemory.Refines

variable {m : PagedMemory} {M : FlatMemory}

/-- One store does the same to both memories. -/
theorem next (h : Refines m M) (s : Store) : Refines (s.next m) (M.write s.cells) := by
  cases s with
  | byte a b => exact h.storeByte a b
  | bytes a bs =>
    rw [Store.cells, ← FlatMemory.storeBytes_eq_write]
    exact h.storeBytes a bs
  | word a value =>
    rw [Store.next_word, Store.cells]
    by_cases ha : a.toNat % 4 = 0
    · rw [if_pos ha, if_pos ha, ← FlatMemory.storeBytes_eq_write]
      exact h.updateWord ha value
    · rw [if_neg ha, if_neg ha]
      exact h

/-- A history does the same to both memories. -/
theorem foldl_next (h : Refines m M) (history : List Store) :
    Refines (history.foldl Store.next m) (M.write (history.flatMap Store.cells)) := by
  induction history generalizing m M with
  | nil => exact h
  | cons s history ih =>
    rw [List.flatMap_cons, FlatMemory.write_append]
    exact ih (h.next s)

end PagedMemory.Refines

namespace Store

theorem replay_refines (history : List Store) : (replay history).Refines (lastByte? history) := by
  have h := Refines.empty.foldl_next history
  rwa [show FlatMemory.write (fun _ => none) (history.flatMap cells) = lastByte? history from
    funext fun x => (FlatMemory.write_apply ..).trans Option.or_none] at h

/-- The word that has the given bytes, the least significant first. -/
def wordOf (bytes : Nat → UInt8) : UInt32 :=
  UInt32.ofNat ((bytes 0).toNat + 0x100 * ((bytes 1).toNat + 0x100 * ((bytes 2).toNat +
    0x100 * (bytes 3).toNat)))

theorem byteOf_wordOf (bytes : Nat → UInt8) {i : Nat} (hi : i < 4) :
    byteOf (wordOf bytes) i = bytes i := by
  have h₀ := (bytes 0).toNat_lt
  have h₁ := (bytes 1).toNat_lt
  have h₂ := (bytes 2).toNat_lt
  have h₃ := (bytes 3).toNat_lt
  rw [← UInt8.toNat_inj, toNat_byteOf, wordOf, UInt32.toNat_ofNat']
  interval_cases i <;> omega

/-- A word can be read if one of its four bytes was ever stored. -/
theorem isSome_loadWord?_replay (history : List Store) (a : UInt32) :
    ((replay history).loadWord? a).isSome ↔ ∃ i < 4, (lastByte? history (wordByte a i)).isSome := by
  rw [(replay_refines history).written a]
  constructor
  · rintro ⟨b, hb, hsome⟩
    have hi : b.toNat % 4 < 4 := Nat.mod_lt _ (by decide)
    have hsame : SameWord b (wordByte a (b.toNat % 4)) := hb.symm.trans (sameWord_wordByte a hi)
    refine ⟨b.toNat % 4, hi, ?_⟩
    rwa [← hsame.eq (wordByte_mod a hi).symm]
  · rintro ⟨i, hi, hsome⟩
    exact ⟨_, sameWord_wordByte a hi, hsome⟩

/-- **A paged memory holds the bytes that were stored last.** A word can be read if one of its bytes
was ever stored, and then it consists of the bytes that were stored last, least significant first,
with zeros where none was. A word is stored at the address of a word; at any other it is refused, and
the memory that the call leaves is the one that it found. -/
theorem replay_holds_lastBytes :
    (∀ (m : PagedMemory) (a value : UInt32),
      (a.toNat % 4 = 0 → ∃ m', storeWord a value m = .ok () m') ∧
      (a.toNat % 4 ≠ 0 → storeWord a value m = .error ⟨a⟩ m ∧ (word a value).next m = m)) ∧
    ∀ (history : List Store) (a : UInt32),
      (((replay history).loadWord? a).isSome ↔
        ∃ i < 4, (lastByte? history (wordByte a i)).isSome) ∧
      ∀ value, (replay history).loadWord? a = some value →
        value = wordOf fun i => (lastByte? history (wordByte a i)).getD 0 := by
  refine ⟨fun m a value => ⟨fun ha => ?_, fun ha => ?_⟩, fun history a =>
    ⟨isSome_loadWord?_replay history a, fun value hvalue => ?_⟩⟩
  · exact ⟨_, by rw [storeWord_eq, if_pos ha]⟩
  · rw [storeWord_eq, if_neg ha, next_word, if_neg ha]
    exact ⟨rfl, rfl⟩
  · refine eq_of_byteOf_eq fun i hi => ?_
    rw [(replay_refines history).byte_wordByte hvalue hi, byteOf_wordOf _ hi]

/-- Stores that overlap, that straddle words and the top of the address space, and one that is
refused. -/
def overlappingStores : List Store :=
  [.word 0 0x44332211, .bytes 0xFFFFFFFD [1, 2, 3, 4, 5], .word 2 0xFFFFFFFF, .byte 0x1000 7]

/-- The first word keeps the upper half of what was stored there first. -/
theorem replay_holds_lastBytes_overlapping :
    storeWord 2 0xFFFFFFFF (replay overlappingStores) = .error ⟨2⟩ (replay overlappingStores) ∧
      ∃ value, (replay overlappingStores).loadWord? 3 = some value ∧ value = 0x44330504 ∧
        value = wordOf fun i => (lastByte? overlappingStores (wordByte 3 i)).getD 0 := by
  refine ⟨((replay_holds_lastBytes.1 _ 2 0xFFFFFFFF).2 (by decide)).1, ?_⟩
  obtain ⟨value, hvalue⟩ := Option.isSome_iff_exists.1
    ((replay_holds_lastBytes.2 overlappingStores 3).1.2 ⟨0, by decide, by decide⟩)
  have hword := (replay_holds_lastBytes.2 overlappingStores 3).2 value hvalue
  exact ⟨value, hvalue, hword.trans (by decide), hword⟩

end Store

end MipsAssembler
