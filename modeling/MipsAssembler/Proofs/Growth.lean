import MipsAssembler.Proofs.Editing

/-!
# Growing an extent

An extent grows into the extents that follow it. In a tiling there is one condition for this: all
addresses that it is to take are free (`FreeUpTo`). If so, the extent gets just these addresses, and of
the extents after it everything beyond them is left, as `Extent.beyond?` says for each of them on its
own; otherwise all of them are given back as they were (`grow_takes_next`).

The walk over the extents may end in three ways: before an extent, inside one, or with the last. In
none of them does it stop short of the addresses that are asked for (`consume_of_freeUpTo`), and it
passes over nothing that is not free (`freeUpTo_of_consume`).
-/

namespace MipsAssembler

open Outcome

/-- What is left of an extent beyond the address `a`: nothing if it ends there or before, its last part
if it starts there or before, and else all of it. -/
def Extent.beyond? (a : UInt32) (e : Extent) : Option Extent :=
  if e.upper ≤ a then none
  else if e.lower ≤ a then some { e with lower := a + 1 }
  else some e

namespace Tiling

/-- All addresses after `a` and up to `b` lie in free extents. -/
def FreeUpTo (es : List Extent) (a b : Nat) : Prop :=
  ∀ x, a < x → x ≤ b → statusAt? es x = some .free

section Consume

variable {e next : Extent} {rest post : List Extent} {a b : Nat} {n upper covered : UInt32}

theorem filterMap_beyond?_of_lt (hc : Covers a post b) (h : upper.toNat < a) :
    post.filterMap (Extent.beyond? upper) = post := by
  conv_rhs => rw [← List.filterMap_some (l := post)]
  refine List.filterMap_congr fun f hf => ?_
  obtain ⟨hlow, hord, -⟩ := hc.bounds_of_mem hf
  rw [UInt32.le_iff_toNat_le] at hord
  rw [Extent.beyond?, if_neg (by rw [UInt32.le_iff_toNat_le]; omega),
    if_neg (by rw [UInt32.le_iff_toNat_le]; omega)]

/-- What lies beyond an address keeps its status, and all else is gone. -/
theorem statusAt?_filterMap_beyond? (es : List Extent) (upper : UInt32) (x : Nat) :
    statusAt? (es.filterMap (Extent.beyond? upper)) x =
      if x ≤ upper.toNat then none else statusAt? es x := by
  induction es with
  | nil => simp [statusAt?]
  | cons f es ih =>
    rw [List.filterMap_cons, Extent.beyond?]
    by_cases hgone : f.upper ≤ upper
    · rw [if_pos hgone]
      rw [UInt32.le_iff_toNat_le] at hgone
      simp only [ih, statusAt?]
      grind
    · rw [if_neg hgone]
      rw [UInt32.le_iff_toNat_le, Nat.not_le] at hgone
      have hsucc : (upper + 1).toNat = upper.toNat + 1 := by
        have := f.upper.toNat_lt
        rw [UInt32.toNat_add, show (1 : UInt32).toNat = 1 from rfl, Nat.mod_eq_of_lt (by omega)]
      split_ifs with hcut <;> rw [UInt32.le_iff_toNat_le] at hcut <;>
        simp only [statusAt?, ih, hsucc] <;> grind

theorem FreeUpTo.isFree (h : FreeUpTo (next :: rest) a b) (hlower : next.lower.toNat = a + 1)
    (hord : next.lower ≤ next.upper) (hlt : a < b) : next.isFree = true := by
  rw [UInt32.le_iff_toNat_le] at hord
  have hfirst := h (a + 1) (by omega) (by omega)
  rw [statusAt?, if_pos (by omega)] at hfirst
  simpa [Extent.isFree] using hfirst

theorem FreeUpTo.tail (h : FreeUpTo (next :: rest) a b) (hle : a ≤ next.upper.toNat) :
    FreeUpTo rest next.upper.toNat b := by
  intro x hx hxb
  have := h x (by omega) hxb
  rwa [statusAt?, if_neg (by omega)] at this

/-- If all addresses that are to be taken are free, they are taken, and what is beyond them is left. -/
theorem consume_of_freeUpTo (hc : Covers (covered.toNat + 1) post b) (hle : covered ≤ upper)
    (hfree : FreeUpTo post covered.toNat upper.toNat) :
    (e.consume n upper covered post).map (Extent.startAfter upper) =
      .ok (post.filterMap (Extent.beyond? upper)) := by
  induction post generalizing covered with
  | nil =>
    have hend : ¬covered < upper := fun hlt => by
      rw [UInt32.lt_iff_toNat_lt] at hlt
      cases hfree upper.toNat hlt (Nat.le_refl _)
    rw [Extent.consume, if_neg hend]
    rfl
  | cons next rest ih =>
    rw [Extent.consume]
    split
    · rename_i hend
      obtain rfl := UInt32.le_antisymm hle hend
      rw [filterMap_beyond?_of_lt hc (Nat.lt_succ_self _)]
      exact congrArg Except.ok (startAfter_of_lt hc (Nat.lt_succ_self _))
    rename_i hend
    obtain ⟨hlower, hord, hrest⟩ := hc
    rw [UInt32.not_le, UInt32.lt_iff_toNat_lt] at hend
    have hcovered : (covered + 1).toNat = covered.toNat + 1 := by
      have := upper.toNat_lt
      rw [UInt32.toNat_add, show (1 : UInt32).toNat = 1 from rfl, Nat.mod_eq_of_lt (by omega)]
    have hstart : next.lower = covered + 1 := UInt32.toNat_inj.1 (by omega)
    rw [if_neg (not_not.2 hstart), if_neg (by simp [hfree.isFree hlower hord hend])]
    rw [UInt32.le_iff_toNat_le] at hord
    split
    · -- the last address lies inside the next extent, which keeps what is beyond it
      rename_i hcut
      rw [UInt32.lt_iff_toNat_lt] at hcut
      have hinside : next.lower ≤ upper := UInt32.le_iff_toNat_le.2 (by omega)
      have hkept : Extent.beyond? upper next = some { next with lower := upper + 1 } := by
        rw [Extent.beyond?, if_neg (by rw [UInt32.le_iff_toNat_le]; omega), if_pos hinside]
      rw [List.filterMap_cons_some hkept, filterMap_beyond?_of_lt hrest (by omega)]
      exact congrArg Except.ok (by rw [Extent.startAfter, if_pos hinside])
    · rename_i hcut
      rw [UInt32.not_lt] at hcut
      have hgone : Extent.beyond? upper next = none := if_pos hcut
      rw [List.filterMap_cons_none hgone]
      exact ih hrest hcut (hfree.tail (by omega))

theorem freeUpTo_of_consume (hc : Covers (covered.toNat + 1) post b)
    (h : e.consume n upper covered post = .ok rest) :
    FreeUpTo post covered.toNat upper.toNat := by
  induction post generalizing covered with
  | nil =>
    rw [Extent.consume] at h
    split at h
    · cases h
    · rename_i hend
      rw [UInt32.lt_iff_toNat_lt] at hend
      intro x hx hxb
      omega
  | cons next post ih =>
    rw [Extent.consume] at h
    intro x hx hxb
    split at h
    · rename_i hend
      rw [UInt32.le_iff_toNat_le] at hend
      omega
    split at h
    · cases h
    split at h
    · cases h
    rename_i hfree
    obtain ⟨hlower, -, hpost⟩ := hc
    have hstatus : next.status = .free := by simpa [Extent.isFree] using hfree
    rw [statusAt?]
    split
    · rw [hstatus]
    · rename_i hbeyond
      split at h
      · rename_i hcut
        rw [UInt32.lt_iff_toNat_lt] at hcut
        omega
      · exact ih hpost h x (by omega) hxb

/-- Whatever stops the walk says that the list is not as it should be. -/
theorem consume_error_kind {err : PlacementError} (h : e.consume n upper covered post = .error err) :
    err.kind = .invariant := by
  induction post generalizing covered with
  | nil =>
    rw [Extent.consume] at h
    split at h
    · obtain rfl := Except.error.inj h
      rfl
    · cases h
  | cons next post ih =>
    rw [Extent.consume] at h
    split at h
    · cases h
    split at h
    · obtain rfl := Except.error.inj h
      rfl
    split at h
    · obtain rfl := Except.error.inj h
      rfl
    split at h
    · cases h
    · exact ih h

end Consume

section Grow

variable {e head tail : Extent} {next : List Extent} {a b : Nat} {n : UInt32}

theorem toNat_add_upper (h : e.upper.toNat + n.toNat ≤ 0xFFFFFFFF) :
    (e.upper + n).toNat = e.upper.toNat + n.toNat := by
  rw [UInt32.toNat_add, Nat.mod_eq_of_lt (by omega)]

theorem FreeUpTo.le_last (h : FreeUpTo next e.upper.toNat (e.upper.toNat + n.toNat))
    (hc : Covers (e.upper.toNat + 1) next b) (hb : b ≤ 0x100000000) :
    e.upper.toNat + n.toNat ≤ 0xFFFFFFFF := by
  have hupper := e.upper.toNat_lt
  by_contra hlt
  have hlast := h (e.upper.toNat + n.toNat) (by omega) (Nat.le_refl _)
  rw [hc.statusAt?_eq_none (.inr (by omega))] at hlast
  cases hlast

theorem grow_of_freeUpTo (hc : Covers (e.upper.toNat + 1) next b) (hb : b ≤ 0x100000000)
    (h : FreeUpTo next e.upper.toNat (e.upper.toNat + n.toNat)) :
    e.grow next n =
      .ok () ({ e with upper := e.upper + n }, next.filterMap (Extent.beyond? (e.upper + n))) := by
  rw [Extent.grow]
  split
  · rename_i hzero
    subst hzero
    rw [UInt32.add_zero, filterMap_beyond?_of_lt hc (Nat.lt_succ_self _)]
  · have hlast := h.le_last hc hb
    have hupper := toNat_add_upper hlast
    have hle : e.upper ≤ e.upper + n := UInt32.le_iff_toNat_le.2 (by omega)
    rw [if_neg (by omega)]
    rw [← hupper] at h
    obtain ⟨left, hleft, hrest⟩ := map_eq_ok.1 (@consume_of_freeUpTo e _ _ n _ _ hc hle h)
    simp only [hleft, hrest]

theorem freeUpTo_of_grow {grown : Extent} {rest : List Extent}
    (hc : Covers (e.upper.toNat + 1) next b) (h : e.grow next n = .ok () (grown, rest)) :
    FreeUpTo next e.upper.toNat (e.upper.toNat + n.toNat) := by
  rw [Extent.grow] at h
  split at h
  · rename_i hzero
    subst hzero
    intro x hx hxb
    exact absurd hxb (Nat.not_le.2 hx)
  split at h
  · cases h
  · rename_i hlast
    dsimp only at h
    split at h <;> rename_i left hleft <;> cases h
    rw [← toNat_add_upper (by omega)]
    exact freeUpTo_of_consume hc hleft

theorem grow_error_kind {err : PlacementError} {parts : Extent × List Extent}
    (h : e.grow next n = .error err parts) : err.kind = .invariant := by
  rw [Extent.grow] at h
  split at h
  · cases h
  split at h
  · cases h
    rfl
  · dsimp only at h
    split at h <;> rename_i hconsume <;> cases h
    exact consume_error_kind hconsume

/-- What is split off an extent can be taken back. -/
theorem grow_of_shrink (hc : Covers a (e :: next) b) (hb : b ≤ 0x100000000)
    (h : e.shrink n = .ok (head, tail)) : head.grow (tail :: next) n = .ok () (e, next) := by
  have hord : e.lower ≤ e.upper := hc.2.1
  obtain ⟨-, -, hupper, hfree, -, hcut, hsize, -⟩ := shrink_spec hord h
  obtain ⟨-, -, htail⟩ := (shrink_recoats hc h).covers
  have hback : { head with upper := head.upper + n } = e ∧ head.upper + n = e.upper := by
    rw [Extent.shrink] at h
    split at h
    · cases h
    · obtain ⟨rfl, -⟩ := Prod.mk.inj (Except.ok.inj h)
      simp only [UInt32.sub_add_cancel, and_self]
  have hunused : FreeUpTo (tail :: next) head.upper.toNat (head.upper.toNat + n.toNat) := by
    intro x hx hxb
    rw [statusAt?, if_pos (by rw [hupper]; omega), hfree]
  have hgone : Extent.beyond? e.upper tail = none := if_pos (UInt32.le_of_eq hupper)
  rw [grow_of_freeUpTo htail hb hunused, hback.1, hback.2, List.filterMap_cons_none hgone,
    filterMap_beyond?_of_lt hc.2.2 (Nat.lt_succ_self _)]

/-- In the place of the extent and of those after it goes what growing gives back. -/
theorem perform_grow (before : List Extent) :
    Edit.perform (before ++ e :: next) (.grow before.length n) =
      before ++ (endState (e.grow next n)).1 :: (endState (e.grow next n)).2 := by
  simp only [Edit.perform, Edit.fromItem, List.drop_left, List.take_left, Option.map_some,
    Option.getD_some]

/-- **An extent grows by just the addresses after it, or not at all.** In a list that passes the check,
an extent can grow by `n` bytes exactly if the `n` addresses after it are addresses of the list and
free. Then it ends `n` addresses later, and of each extent after it there is left what lies beyond its
new end, so that these `n` addresses and no others are gone from them. If it cannot grow, the extent and
those after it are given back as they were, and the list stays as it is. What is split off an extent can
be taken back by growing. -/
theorem grow_takes_next {low high : UInt32} (h : check (e :: next) low high = .ok ()) (n : UInt32) :
    ((∃ grown rest, e.grow next n = .ok () (grown, rest)) ↔
      FreeUpTo next e.upper.toNat (e.upper.toNat + n.toNat)) ∧
    (∀ grown rest, e.grow next n = .ok () (grown, rest) →
      grown = { e with upper := e.upper + n } ∧
      grown.upper.toNat = e.upper.toNat + n.toNat ∧
      rest = next.filterMap (Extent.beyond? grown.upper) ∧
      (∀ x, statusAt? rest x =
        if e.upper.toNat < x ∧ x ≤ e.upper.toNat + n.toNat then none else statusAt? next x) ∧
      ∀ before, Edit.perform (before ++ e :: next) (.grow before.length n) =
        before ++ grown :: rest) ∧
    (∀ err same rest, e.grow next n = .error err (same, rest) →
      err.kind = .invariant ∧ same = e ∧ rest = next ∧
      ∀ before, Edit.perform (before ++ e :: next) (.grow before.length n) = before ++ e :: next) ∧
    ∀ head tail, e.shrink n = .ok (head, tail) → head.grow (tail :: next) n = .ok () (e, next) := by
  have hcovers := (isTiling_iff.1 (check_eq_ok.1 h)).2
  have hnext : Covers (e.upper.toNat + 1) next (high.toNat + 1) := hcovers.2.2
  have hend : high.toNat + 1 ≤ 0x100000000 := high.toNat_lt
  refine ⟨⟨fun ⟨grown, rest, hg⟩ => freeUpTo_of_grow hnext hg, fun hf =>
    ⟨_, _, grow_of_freeUpTo hnext hend hf⟩⟩, fun grown rest hg => ?_, fun err same rest herr => ?_,
    fun head tail hs => grow_of_shrink hcovers hend hs⟩
  · have hfree := freeUpTo_of_grow hnext hg
    have hupper := toNat_add_upper (hfree.le_last hnext hend)
    have hgrown := hg.symm.trans (grow_of_freeUpTo hnext hend hfree)
    rw [EStateM.Result.ok.injEq, Prod.mk.injEq] at hgrown
    obtain ⟨-, rfl, rfl⟩ := hgrown
    refine ⟨rfl, hupper, rfl, fun x => ?_, fun before => ?_⟩
    · rw [statusAt?_filterMap_beyond?, hupper]
      by_cases hbelow : x ≤ e.upper.toNat
      · rw [hnext.statusAt?_eq_none (.inl (by omega)), if_pos (by omega), if_neg (by omega)]
      · simp only [Nat.not_le.1 hbelow, true_and]
    · rw [perform_grow, hg, endState]
  · obtain ⟨rfl, rfl⟩ := Prod.mk.inj (parts_of_grow_error herr)
    refine ⟨grow_error_kind herr, rfl, rfl, fun before => ?_⟩
    rw [perform_grow, herr, endState]

/-- A block, two free extents after it, and another block at the last address there is. -/
def blockedExtents : List Extent :=
  [⟨0x10, 0x1F, .allocated, some 0⟩, ⟨0x20, 0x2F, .free, none⟩, ⟨0x30, 0xFFFFFFFE, .free, some 7⟩,
   ⟨0xFFFFFFFF, 0xFFFFFFFF, .allocated, some 1⟩]

/-- The block can grow into the second of the free extents, which keeps its owner, and up to the last
free address, but not by one byte more. -/
theorem grow_takes_next_blocked :
    ∃ e next, blockedExtents = e :: next ∧ check (e :: next) 0x10 0xFFFFFFFF = .ok () ∧
      FreeUpTo next 0x1F 0x37 ∧
      e.grow next 0x18 = .ok () (⟨0x10, 0x37, .allocated, some 0⟩,
        [⟨0x38, 0xFFFFFFFE, .free, some 7⟩, ⟨0xFFFFFFFF, 0xFFFFFFFF, .allocated, some 1⟩]) ∧
      e.grow next 0xFFFFFFDF = .ok () (⟨0x10, 0xFFFFFFFE, .allocated, some 0⟩,
        [⟨0xFFFFFFFF, 0xFFFFFFFF, .allocated, some 1⟩]) ∧
      ¬FreeUpTo next 0x1F 0xFFFFFFFF ∧ (∃ err, e.grow next 0xFFFFFFE0 = .error err (e, next)) ∧
      Edit.perform (e :: next) (.grow 0 0xFFFFFFE0) = e :: next := by
  refine ⟨_, _, rfl, ?_⟩
  have h : check blockedExtents 0x10 0xFFFFFFFF = .ok () := rfl
  obtain ⟨-, -, -, hkept⟩ := (grow_takes_next h 0xFFFFFFE0).2.2.1 _ _ _ rfl
  refine ⟨h, (grow_takes_next h 0x18).1.1 ⟨_, _, rfl⟩, rfl, rfl, fun hfree => ?_, ⟨_, rfl⟩, hkept []⟩
  obtain ⟨grown, rest, hgrow⟩ := (grow_takes_next h 0xFFFFFFE0).1.2 hfree
  cases hgrow

end Grow

end Tiling

end MipsAssembler
