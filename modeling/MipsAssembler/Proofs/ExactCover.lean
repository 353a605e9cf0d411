import MipsAssembler.Proofs.Tiling

/-!
# Coverings, address by address

The check of a list of extents looks at neighbours and at the two ends. What it decides is a statement
about single addresses (`check_eq_ok_iff_held_once`): every address of the window lies in exactly one
extent, no other address lies in any, and the extents ascend.

`holders` counts the extents that an address lies in. From a covering the counts are read off extent by
extent (`Covers.holders_eq`). In the other direction (`HeldOnce.covers`) the first address of the
stretch lies in some extent; as the extents ascend, this is the first one, and what it does not hold is
left to the others (`HeldOnce.lower_eq`, `HeldOnce.tail`).
-/

namespace MipsAssembler

namespace Tiling

/-- The number of extents that the address `x` lies in. -/
def holders (es : List Extent) (x : UInt32) : Nat := es.countP fun e => e.contains x x

@[simp] theorem holders_nil (x : UInt32) : holders [] x = 0 := rfl

theorem holders_cons (e : Extent) (es : List Extent) (x : UInt32) :
    holders (e :: es) x = holders es x +
      if e.lower.toNat ≤ x.toNat ∧ x.toNat ≤ e.upper.toNat then 1 else 0 := by
  simp [holders, List.countP_cons, Extent.contains, UInt32.le_iff_toNat_le]

theorem holders_ne_zero {es : List Extent} {x : UInt32} :
    holders es x ≠ 0 ↔ ∃ e ∈ es, e.lower ≤ x ∧ x ≤ e.upper := by
  simp [holders, Extent.contains]

/-! ## From neighbours to addresses -/

section Covers

variable {a b : Nat} {es : List Extent}

/-- Each address that is covered lies in one extent. -/
theorem Covers.holders_eq (h : Covers a es b) (x : UInt32) :
    holders es x = if a ≤ x.toNat ∧ x.toNat < b then 1 else 0 := by
  induction es generalizing a with
  | nil =>
    obtain rfl : a = b := h
    rw [holders_nil, if_neg (by omega)]
  | cons e es ih =>
    obtain ⟨rfl, hordered, hrest⟩ := h
    have hend := hrest.le
    rw [UInt32.le_iff_toNat_le] at hordered
    rw [holders_cons, ih hrest]
    grind

theorem Covers.ascending (h : Covers a es b) : es.Pairwise fun e f => e.lower < f.lower := by
  induction es generalizing a with
  | nil => exact .nil
  | cons e es ih =>
    obtain ⟨rfl, hordered, hrest⟩ := h
    refine List.pairwise_cons.2 ⟨fun f hf => ?_, ih hrest⟩
    have hlower := (hrest.bounds_of_mem hf).1
    rw [UInt32.le_iff_toNat_le] at hordered
    rw [UInt32.lt_iff_toNat_lt]
    omega

end Covers

/-! ## From addresses to neighbours -/

/-- The extents have their bounds in order and ascend, the addresses from `a` on and below `b` lie in
one of them each, and no others in any. -/
structure HeldOnce (a : Nat) (es : List Extent) (b : Nat) : Prop where
  ordered : ∀ e ∈ es, e.lower ≤ e.upper
  ascending : es.Pairwise fun e f => e.lower < f.lower
  holders_eq : ∀ x, holders es x = if a ≤ x.toNat ∧ x.toNat < b then 1 else 0

namespace HeldOnce

variable {a b : Nat} {e : Extent} {es : List Extent}

/-- What lies in an extent is between the bounds. -/
theorem bounds (h : HeldOnce a es b) {x : UInt32} (he : e ∈ es) (hlower : e.lower ≤ x)
    (hupper : x ≤ e.upper) : a ≤ x.toNat ∧ x.toNat < b := by
  have hheld := holders_ne_zero.2 ⟨e, he, hlower, hupper⟩
  rw [h.holders_eq] at hheld
  by_contra hout
  exact hheld (if_neg hout)

/-- What is between the bounds lies in an extent. -/
theorem exists_holder (h : HeldOnce a es b) {x : UInt32} (hlower : a ≤ x.toNat)
    (hupper : x.toNat < b) : ∃ f ∈ es, f.lower ≤ x ∧ x ≤ f.upper := by
  rw [← holders_ne_zero, h.holders_eq, if_pos ⟨hlower, hupper⟩]
  exact Nat.one_ne_zero

/-- The first extent begins where the covered addresses begin. -/
theorem lower_eq (h : HeldOnce a (e :: es) b) : e.lower.toNat = a := by
  have hmem : e ∈ e :: es := List.mem_cons_self ..
  obtain ⟨hle, hlt⟩ := h.bounds hmem (UInt32.le_refl _) (h.ordered e hmem)
  have hnat : (UInt32.ofNat a).toNat = a := UInt32.toNat_ofNat_of_lt' (hle.trans_lt e.lower.toNat_lt)
  obtain ⟨f, hf, hlower, -⟩ := @exists_holder _ _ _ h (UInt32.ofNat a) hnat.ge (by omega)
  -- the extent of the first address does not begin before the first extent
  have hfirst : e.lower.toNat ≤ f.lower.toNat := by
    rcases List.mem_cons.1 hf with rfl | hf
    · exact Nat.le_refl _
    · exact Nat.le_of_lt (UInt32.lt_iff_toNat_lt.1 (List.rel_of_pairwise_cons h.ascending hf))
  rw [UInt32.le_iff_toNat_le, hnat] at hlower
  omega

/-- What the first extent does not hold is left to the others. -/
theorem tail (h : HeldOnce a (e :: es) b) :
    e.upper.toNat + 1 ≤ b ∧ HeldOnce (e.upper.toNat + 1) es b := by
  have hmem : e ∈ e :: es := List.mem_cons_self ..
  have hfirst := h.lower_eq
  have hordered := UInt32.le_iff_toNat_le.1 (h.ordered e hmem)
  have hend := (h.bounds hmem (h.ordered e hmem) (UInt32.le_refl _)).2
  refine ⟨hend, fun f hf => h.ordered f (List.mem_cons_of_mem _ hf), h.ascending.of_cons, fun x => ?_⟩
  have hcount := h.holders_eq x
  rw [holders_cons] at hcount
  grind

/-- Extents that hold each address once follow one another without holes. -/
theorem covers (h : HeldOnce a es b) (hle : a ≤ b) (hb : b ≤ UInt32.size) : Covers a es b := by
  induction es generalizing a with
  | nil =>
    by_contra hne
    have hlt : a < b := Nat.lt_of_le_of_ne hle hne
    have hnat : (UInt32.ofNat a).toNat = a := UInt32.toNat_ofNat_of_lt' (hlt.trans_le hb)
    obtain ⟨f, hf, -⟩ := @exists_holder _ _ _ h (UInt32.ofNat a) hnat.ge (by omega)
    exact List.not_mem_nil hf
  | cons e es ih =>
    obtain ⟨hend, htail⟩ := h.tail
    exact ⟨h.lower_eq, h.ordered e (List.mem_cons_self ..), ih htail hend⟩

end HeldOnce

/-- **The check decides exact coverage.** It succeeds exactly if there are extents, each has its bounds
in order, they ascend, and every address lies in exactly one of them if it is in the window, and in none
if it is not. -/
theorem check_eq_ok_iff_held_once (es : List Extent) (low high : UInt32) :
    check es low high = .ok () ↔
      es ≠ [] ∧ (∀ e ∈ es, e.lower ≤ e.upper) ∧ (es.Pairwise fun e f => e.lower < f.lower) ∧
        ∀ x, holders es x = if low ≤ x ∧ x ≤ high then 1 else 0 := by
  have hwindow : ∀ x : UInt32,
      (low ≤ x ∧ x ≤ high) ↔ (low.toNat ≤ x.toNat ∧ x.toNat < high.toNat + 1) := fun x => by
    rw [UInt32.le_iff_toNat_le, UInt32.le_iff_toNat_le, Nat.lt_succ_iff]
  simp only [hwindow]
  rw [check_eq_ok, isTiling_iff]
  refine and_congr_right fun hne => ⟨fun h => ?_, fun ⟨hordered, hascending, hheld⟩ => ?_⟩
  · exact ⟨fun e he => (h.bounds_of_mem he).2.1, h.ascending, h.holders_eq⟩
  · have hheldOnce : HeldOnce low.toNat es (high.toNat + 1) := ⟨hordered, hascending, hheld⟩
    obtain ⟨e, he⟩ := List.exists_mem_of_ne_nil es hne
    have hbounds := hheldOnce.bounds he (UInt32.le_refl _) (hordered e he)
    exact hheldOnce.covers (hbounds.1.trans hbounds.2.le) high.toNat_lt

end Tiling

end MipsAssembler
