import Mathlib.Algebra.Group.Nat.Defs
import MipsAssembler.Proofs.Addressing

/-!
# Where segments begin

First fit cuts an extent at the two ends of a block and nowhere else (`StartIn.filled`). So a set of
addresses that holds the start of the window, all starts that are asked for, and the address after
every block that begins in it, holds the start of every extent of the layout, in use or free
(`layout_startIn`).

The same holds of the segments of a category, which take space in multiples of four or eight bytes
(`placeSegments_startIn`). For text segments the multiples of four are such a set, so that a text
segment that takes space starts at a word if its window does (`placeSegments_aligned`).
-/

namespace MipsAssembler

open Outcome Tiling Placement

/-- A request that does not lead out of a set of addresses: it is for an address of the set or for any
address, and a block for it that begins in the set is followed by an address of the set. -/
structure Request.StaysIn (P : Nat → Prop) (r : Request) : Prop where
  next : ∀ a, P a → P (a + r.size.toNat)
  lower : ∀ a, r.lower = some a → P a.toNat
  upper : r.upper = none

namespace Placement

/-- All extents begin at addresses of a set. -/
def StartIn (P : Nat → Prop) (es : List Extent) : Prop := ∀ e ∈ es, P e.lower.toNat

theorem lower_eq_of_mem_gap {a b : Nat} {es : List Extent} (h : Gap a es b) {e : Extent}
    (he : e ∈ es) : e.lower.toNat = a := by
  match es, h with
  | [f], h =>
    obtain rfl := List.mem_singleton.1 he
    exact (covers_singleton.1 h.covers).1
  | _ :: _ :: _, h => exact absurd h.short (by simp)

variable {P : Nat → Prop} {es es' : List Extent} {r : Request}

/-- An extent is cut at the ends of a block only. -/
theorem StartIn.filled {e block : Extent} (h : StartIn P es) (hfilled : Filled e block es es')
    (hlower : P block.lower.toNat) (hnext : P (block.upper.toNat + 1)) : StartIn P es' := by
  obtain ⟨pre, post, parts, rfl, hins, rfl⟩ := hfilled
  obtain ⟨-, -, before, after, rfl, hbefore, hafter⟩ := Extent.insert_spec hins
  intro f hf
  simp only [List.mem_append, List.mem_cons] at hf
  rcases hf with (hf | hf | rfl | hf) | hf
  · exact h f (by simp [hf])
  · rw [lower_eq_of_mem_gap hbefore hf]
    exact h e (by simp)
  · exact hlower
  · rw [lower_eq_of_mem_gap hafter hf]
    exact hnext
  · exact h f (by simp [hf])

/-- The address after a block. -/
theorem next_mem {block : Extent} (hr : r.StaysIn P) (hhon : r.HonouredBy block)
    (hlower : P block.lower.toNat) : P (block.upper.toNat + 1) := by
  rw [hhon.size]
  exact hr.next _ hlower

theorem placeBound_startIn (h : StartIn P es) (hr : r.StaysIn P) (hbound : r.isFloating = false)
    (hp : placeBound es r = .ok es') : StartIn P es' := by
  obtain ⟨e, block, hfilled, hhon⟩ := placeBound_inv hp
  obtain ⟨a, ha⟩ : ∃ a, r.lower = some a := by
    rw [← Option.isSome_iff_exists]
    simpa [Request.isFloating, hr.upper, Option.isSome_iff_ne_none] using hbound
  have hlower : P block.lower.toNat := hhon.lower a ha ▸ hr.lower a ha
  exact h.filled hfilled hlower (next_mem hr hhon hlower)

theorem placeFloating_startIn (h : StartIn P es) (hord : ∀ e ∈ es, e.lower ≤ e.upper)
    (hr : r.StaysIn P) (hfloat : r.isFloating = true) (hp : placeFloating es r = .ok es') :
    StartIn P es' := by
  obtain ⟨e, he, block, hfilled, hhon, hsame⟩ := placeFloating_inv hord hfloat hp
  have hlower : P block.lower.toNat := hsame ▸ h e he
  exact h.filled hfilled hlower (next_mem hr hhon hlower)

/-- The extents divide the window and begin in a set. The division is carried along because a block
that may lie anywhere must not wrap around. -/
def DivisionIn (P : Nat → Prop) (low high : UInt32) (es : List Extent) : Prop :=
  (∃ blocks, Division low high blocks es) ∧ StartIn P es

/-- First fit does not lead out of a set that requests do not lead out of. -/
theorem layout_startIn {requests : List Request} {low high : UInt32}
    (hr : ∀ r ∈ requests, r.StaysIn P) (hlow : P low.toNat)
    (h : layout requests low high = .ok es) : StartIn P es := by
  by_cases hw : high < low
  case pos => simp [layout, hw] at h
  simp only [layout, if_neg hw] at h
  obtain ⟨bound, hb, h⟩ := bind_eq_ok.1 h
  obtain ⟨memory, hf, h⟩ := bind_eq_ok.1 h
  obtain ⟨_, -, h⟩ := bind_eq_ok.1 h
  obtain rfl := pure_eq_ok.1 h
  have hstart : DivisionIn P low high [{ lower := low, upper := high }] :=
    ⟨⟨[], division_window (UInt32.not_lt.1 hw)⟩, by simpa [StartIn] using hlow⟩
  have hbound : DivisionIn P low high bound := by
    refine foldlM_keeps (DivisionIn P low high) ?_ hb hstart
    rintro es r es' hmem ⟨⟨blocks, hd⟩, ha⟩ hp
    obtain ⟨hmem, hkind⟩ := List.mem_filter.1 hmem
    obtain ⟨block, -, hd'⟩ := placeBound_step hd hp
    exact ⟨⟨_, hd'⟩, placeBound_startIn ha (hr r hmem) (by simpa using hkind) hp⟩
  refine (foldlM_keeps (DivisionIn P low high) ?_ hf hbound).2
  rintro es r es' hmem ⟨⟨blocks, hd⟩, ha⟩ hp
  obtain ⟨hmem, hkind⟩ := List.mem_filter.1 hmem
  have hord : ∀ e ∈ es, e.lower ≤ e.upper := fun e he => (hd.covers.bounds_of_mem he).2.1
  obtain ⟨block, -, hd'⟩ := placeFloating_step hd hkind hp
  exact ⟨⟨_, hd'⟩, placeFloating_startIn ha hord (hr r hmem) hkind hp⟩

end Placement

/-! ## Segments -/

variable {α : Type} [Sized α] {k : Category} {window : Region}

theorem dvd_roundUp (n : UInt32) {align : UInt32} (hone : 1 < align) (hdvd : align.toNat ∣ 2 ^ 32) :
    align.toNat ∣ (roundUp n align).toNat := by
  rw [roundUp, if_neg (UInt32.not_le.2 hone)]
  split
  · rename_i hmod
    rw [← UInt32.toNat_inj, UInt32.toNat_mod] at hmod
    exact Nat.dvd_of_mod_eq_zero hmod
  · -- what is over is taken away first, which does not wrap around
    have hle : n % align ≤ n := by
      rw [UInt32.le_iff_toNat_le, UInt32.toNat_mod]
      exact Nat.mod_le ..
    have hswap : n + align - n % align = n - n % align + align := by grind
    rw [hswap, UInt32.toNat_add, UInt32.toNat_sub_of_le _ _ hle, UInt32.toNat_mod,
      Nat.dvd_mod_iff hdvd]
    exact Nat.dvd_add (Nat.dvd_sub_mod _) (Nat.dvd_refl _)

/-- The space of a segment is a multiple of what its category is filled up to. -/
theorem segmentAlign_dvd_space (k : Category) (s : Segment α) :
    (segmentAlign k).toNat ∣ (segmentSpace k s).toNat := by
  cases k with
  | text m => exact dvd_roundUp _ (show 1 < 4 by decide) (Nat.pow_dvd_pow 2 (show 2 ≤ 32 by decide))
  | data m => exact dvd_roundUp _ (show 1 < 8 by decide) (Nat.pow_dvd_pow 2 (show 3 ≤ 32 by decide))

/-- Segments that take space start in a set of addresses that holds the start of the window and all
starts that are given, and with an address also that after a segment there. -/
theorem placeSegments_startIn {P : Nat → Prop} {segments placed : List (Segment α)}
    (hwindow : P window.start.toNat)
    (hgiven : ∀ s ∈ segments, segmentSpace k s ≠ 0 → ∀ a, addressOf? s.start = some a →
      (k.isText = true → a % 4 = 0) → P a.toNat)
    (hnext : ∀ s ∈ segments, ∀ a, P a → P (a + (segmentSpace k s).toNat))
    (h : placeSegments k window segments = .ok placed) {s : Segment α} (hs : s ∈ placed)
    (hspace : segmentSpace k s ≠ 0) : P s.startAddress.toNat := by
  obtain ⟨requests, extents, hr, hd, rfl⟩ := placeSegments_inv h
  obtain ⟨⟨s, i⟩, hmem, rfl⟩ := List.mem_map.1 hs
  rw [segmentSpace_settleStart] at hspace
  obtain ⟨e, hfound⟩ := extentOf?_of_space hr hd hmem hspace
  have he := (extentOf?_spec hr hd hmem hfound).1
  rw [startAddress_settleStart hfound]
  have hstays : ∀ r ∈ requests.filterMap id, r.StaysIn P := by
    intro r hr'
    obtain ⟨_, ho, rfl⟩ := List.mem_filterMap.1 hr'
    obtain ⟨⟨s', i'⟩, hmem', hreq⟩ := exists_of_mem_right hr ho
    have hs' := List.fst_mem_of_mem_zipIdx hmem'
    obtain ⟨rfl, hspace', hword⟩ := segmentRequest_inv hreq
    exact ⟨hnext s' hs', fun a ha => hgiven s' hs' hspace' a ha (hword a ha), rfl⟩
  rw [divideWindow] at hd
  split at hd
  · obtain rfl := Except.ok.inj hd
    cases he
  split at hd
  · rename_i es hlayout
    obtain rfl := Except.ok.inj hd
    exact layout_startIn hstays hwindow hlayout e he
  · cases hd

/-! ## Text segments -/

theorem four_dvd_toNat {a : UInt32} : 4 ∣ a.toNat ↔ a % 4 = 0 := by
  rw [← UInt32.toNat_inj, UInt32.toNat_mod]
  exact Nat.dvd_iff_mod_eq_zero

/-- A text segment that takes space starts at a word if its window does. -/
theorem placeSegments_aligned {segments placed : List (Segment α)} (hk : k.isText = true)
    (hwindow : 4 ∣ window.start.toNat) (h : placeSegments k window segments = .ok placed)
    {s : Segment α} (hs : s ∈ placed) (hspace : segmentSpace k s ≠ 0) :
    4 ∣ s.startAddress.toNat := by
  refine placeSegments_startIn hwindow ?_ ?_ h hs hspace
  · intro s _ _ a _ hword
    exact four_dvd_toNat.2 (hword hk)
  · intro s _ a ha
    have hspace := segmentAlign_dvd_space k s
    rw [segmentAlign, if_pos hk] at hspace
    exact Nat.dvd_add ha hspace

end MipsAssembler
