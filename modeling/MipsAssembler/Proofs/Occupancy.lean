import MipsAssembler.Proofs.Linking

/-!
# The memory that entries occupy

The bytes of an entry form a block. In a resolved program the blocks of all entries are apart from
one another, and each lies inside the window of its category (`Program.resolve_blocks`).

The entries of a segment follow one another, so their blocks divide the span of the segment
(`assign_blocks`). The spans of different segments are apart because the layout gives each segment
at least the bytes that its entries take (`size_le_segmentSpace`): a window that ends eight bytes
before the address space does leaves the size of a segment room to be rounded up. The categories
are apart if their windows are.
-/

namespace MipsAssembler

open Outcome

variable {α : Type}

/-! ## Blocks -/

/-- Some bytes of memory that follow one another. -/
structure Block where
  start : Nat
  size : Nat

namespace Block

/-- Is the byte at the address part of the block? -/
def Covers (b : Block) (x : Nat) : Prop := b.start ≤ x ∧ x < b.start + b.size

/-- The blocks have no byte in common. -/
def Apart (b c : Block) : Prop := ∀ x, b.Covers x → ¬c.Covers x

/-- All of the block lies in the region. -/
def Within (r : Region) (b : Block) : Prop :=
  r.start.toNat ≤ b.start ∧ b.start + b.size ≤ r.stop.toNat

/-- The block is a part of another. -/
def IsPart (b c : Block) : Prop := c.start ≤ b.start ∧ b.start + b.size ≤ c.start + c.size

theorem Covers.size_ne_zero {b : Block} {x : Nat} (h : b.Covers x) : b.size ≠ 0 := by
  obtain ⟨hl, hu⟩ := h
  omega

theorem IsPart.covers {b c : Block} (h : b.IsPart c) {x : Nat} (hx : b.Covers x) : c.Covers x := by
  obtain ⟨hl, hu⟩ := h
  obtain ⟨hl', hu'⟩ := hx
  exact ⟨by omega, by omega⟩

theorem Apart.of_isPart {b b' c c' : Block} (h : c.Apart c') (hb : b.IsPart c)
    (hb' : b'.IsPart c') : b.Apart b' :=
  fun x hx hx' => h x (hb.covers hx) (hb'.covers hx')

theorem Apart.symm {b c : Block} (h : b.Apart c) : c.Apart b := fun x hc hb => h x hb hc

theorem apart_of_le {b c : Block} (h : b.start + b.size ≤ c.start ∨ c.start + c.size ≤ b.start) :
    b.Apart c := by
  rintro x ⟨hl, hu⟩ ⟨hl', hu'⟩
  omega

theorem apart_of_size {b c : Block} (h : b.size = 0 ∨ c.size = 0) : b.Apart c := by
  rintro x ⟨hl, hu⟩ ⟨hl', hu'⟩
  omega

end Block

/-- The bytes of an entry. -/
def Entry.block [Sized α] (e : Entry α) : Block where
  start := ((addressOf? e.place).getD 0).toNat
  size := (byteSize e.item).toNat

/-- The bytes of the entries of some segments. -/
def blocksOf [Sized α] (segments : List (Segment α)) : List Block :=
  segments.flatMap fun s => s.entries.map Entry.block

/-- The bytes of the entries of a category. -/
def Program.blocks (p : Program) : Category → List Block
  | .text m => blocksOf (p.text m)
  | .data m => blocksOf (p.data m)

/-! ## The entries of a segment -/

/-- The bytes from the start of a segment to the end of its last entry. -/
def Segment.span [Sized α] (s : Segment α) : Block := ⟨s.startAddress.toNat, totalSize s.entries⟩

theorem assignFrom_blocks [Sized α] {a : Nat} {es : List (Entry α)}
    (h : a + totalSize es < 2 ^ 32) :
    (∀ b ∈ (assignFrom a es).map Entry.block, b.IsPart ⟨a, totalSize es⟩) ∧
      ((assignFrom a es).map Entry.block).Pairwise Block.Apart := by
  induction es generalizing a with
  | nil => exact ⟨by simp [assignFrom], .nil⟩
  | cons e es ih =>
    rw [totalSize_cons] at h
    obtain ⟨hparts, hapart⟩ := ih (by omega : a + (byteSize e.item).toNat + totalSize es < 2 ^ 32)
    have hstart : (UInt32.ofNat a).toNat = a := UInt32.toNat_ofNat_of_lt' (show a < 2 ^ 32 by omega)
    rw [assignFrom, List.map_cons, totalSize_cons]
    -- the first block ends where the others begin
    refine ⟨fun b hb => ?_, List.pairwise_cons.2 ⟨fun b hb => ?_, hapart⟩⟩
    · rcases List.mem_cons.1 hb with rfl | hb
      · simp [Block.IsPart, Entry.block, hstart]
      · obtain ⟨hl, hu⟩ := hparts b hb
        exact ⟨Nat.le_of_add_right_le hl, by simpa [Nat.add_assoc] using hu⟩
    · refine Block.apart_of_le (.inl ?_)
      simpa [Entry.block, hstart] using (hparts b hb).1

/-- The blocks of the entries of a segment are parts of its span, apart from one another. -/
theorem assign_blocks [Sized α] {s : Segment α} (h : s.span.start + s.span.size < 2 ^ 32) :
    (∀ b ∈ s.assign.entries.map Entry.block, b.IsPart s.span) ∧
      (s.assign.entries.map Entry.block).Pairwise Block.Apart :=
  assignFrom_blocks h

/-! ## The segments of a category -/

/-- Rounding up does not wrap around up to the last multiple of eight. -/
theorem le_roundUp {n align : UInt32} (h : n.toNat ≤ 0xFFFFFFF8) (ha : align = 4 ∨ align = 8) :
    n.toNat ≤ (roundUp n align).toNat := by
  have hmod : n % align = 0 ↔ n.toNat % align.toNat = 0 := by
    rw [← UInt32.toNat_inj, UInt32.toNat_mod, UInt32.toNat_zero]
  rw [roundUp]
  split
  · exact Nat.le_refl _
  split <;> rename_i hne
  · exact Nat.le_refl _
  rw [hmod] at hne
  rw [UInt32.toNat_sub, UInt32.toNat_add, UInt32.toNat_mod]
  rcases ha with rfl | rfl <;> simp only [UInt32.reduceToNat] at hne ⊢ <;> omega

theorem size_le_segmentSpace [Sized α] (k : Category) {s : Segment α}
    (h : s.span.size ≤ 0xFFFFFFF8) : s.span.size ≤ (segmentSpace k s).toNat := by
  have hsize : s.size.toNat = s.span.size := toNat_segmentSize (Nat.lt_of_le_of_lt h (by decide))
  rw [← hsize] at h ⊢
  refine le_roundUp h ?_
  cases k with
  | text => exact .inl rfl
  | data => exact .inr rfl

section Placed

variable [Sized α] {k : Category} {window : Region} {segments placed : List (Segment α)}
  {t t' : SymbolTable}

/-- The span of a placed segment, if it has entries, ends inside the window. -/
theorem span_stop_le (hl : (labelActions k window placed).foldlM LabelAction.apply t = .ok t')
    {s : Segment α} (hs : s ∈ placed) (hne : s.entries ≠ []) :
    s.span.start + s.span.size ≤ window.stop.toNat :=
  labelActions_fits hl hs hne

theorem entries_ne_nil_of_span {s : Segment α} (h : s.span.size ≠ 0) : s.entries ≠ [] := by
  intro hnil
  simp [Segment.span, hnil] at h

variable (hw : window.stop.toNat ≤ 0xFFFFFFF8)
include hw

/-- A placed segment with bytes gets at least as many from the layout. -/
theorem span_size_le (hl : (labelActions k window placed).foldlM LabelAction.apply t = .ok t')
    {s : Segment α} (hs : s ∈ placed) (h : s.span.size ≠ 0) :
    s.span.size ≤ (segmentSpace k s).toNat ∧ segmentSpace k s ≠ 0 := by
  have hstop := span_stop_le hl hs (entries_ne_nil_of_span h)
  have hle := size_le_segmentSpace k (s := s) (by omega)
  refine ⟨hle, fun h0 => ?_⟩
  rw [h0, UInt32.toNat_zero] at hle
  omega

theorem span_within (hp : placeSegments k window segments = .ok placed)
    (hl : (labelActions k window placed).foldlM LabelAction.apply t = .ok t')
    {s : Segment α} (hs : s ∈ placed) (h : s.span.size ≠ 0) : s.span.Within window :=
  ⟨(placeSegments_inside hp hs (span_size_le hw hl hs h).2).1,
    span_stop_le hl hs (entries_ne_nil_of_span h)⟩

theorem spans_apart (hp : placeSegments k window segments = .ok placed)
    (hl : (labelActions k window placed).foldlM LabelAction.apply t = .ok t') :
    placed.Pairwise fun s s' => s.span.Apart s'.span := by
  refine (placeSegments_apart hp).imp_of_mem fun {s s'} hs hs' hspace => ?_
  by_cases h : s.span.size = 0 ∨ s'.span.size = 0
  · exact Block.apart_of_size h
  rw [not_or] at h
  obtain ⟨hle, hne⟩ := span_size_le hw hl hs h.1
  obtain ⟨hle', hne'⟩ := span_size_le hw hl hs' h.2
  refine Block.apart_of_le ?_
  have := hspace hne hne'
  simp only [Segment.span] at hle hle' ⊢
  omega

/-- The blocks of a category that is settled in its window are apart and inside it. -/
theorem settle_blocks {settled : List (Segment α)}
    (h : settle k window segments t = .ok (settled, t')) :
    (blocksOf settled).Pairwise Block.Apart ∧
      ∀ b ∈ blocksOf settled, b.size ≠ 0 → b.Within window := by
  obtain ⟨placed, hp, hl, rfl⟩ := settle_eq_ok.1 h
  have hparts : ∀ s ∈ placed, (∀ b ∈ s.assign.entries.map Entry.block, b.IsPart s.span) ∧
      (s.assign.entries.map Entry.block).Pairwise Block.Apart := by
    intro s hs
    by_cases hne : s.entries = []
    · simp [Segment.assign, hne, assignFrom]
    · have hstop := span_stop_le hl hs hne
      exact assign_blocks (by omega)
  rw [blocksOf, List.flatMap_map, List.pairwise_flatMap]
  refine ⟨⟨fun s hs => (hparts s hs).2, ?_⟩, fun b hb hsize => ?_⟩
  · refine (spans_apart hw hp hl).imp_of_mem fun hs hs' hapart b hb b' hb' => ?_
    exact hapart.of_isPart ((hparts _ hs).1 b hb) ((hparts _ hs').1 b' hb')
  · obtain ⟨s, hs, hb⟩ := List.mem_flatMap.1 hb
    obtain ⟨hl', hu'⟩ := (hparts s hs).1 b hb
    obtain ⟨hstart, hstop⟩ := span_within hw hp hl hs (by omega)
    exact ⟨Nat.le_trans hstart hl', Nat.le_trans hu' hstop⟩

end Placed

/-! ## Programs -/

/-- Windows that can be used: no two have an address in common, and each ends eight bytes before the
address space does, so that the size of a segment can be rounded up. -/
structure Windows.Usable (w : Windows) : Prop where
  stop_le : ∀ k, (w.region k).stop.toNat ≤ 0xFFFFFFF8
  apart : ∀ k k', k ≠ k' → ∀ a, (w.region k).contains a → ¬(w.region k').contains a

theorem Block.contains_of_within {r : Region} {b : Block} (h : b.Within r) {x : Nat}
    (hx : b.Covers x) : r.contains (UInt32.ofNat x) := by
  obtain ⟨hl, hu⟩ := h
  obtain ⟨hl', hu'⟩ := hx
  have hlt := r.stop.toNat_lt
  have hnat : (UInt32.ofNat x).toNat = x := UInt32.toNat_ofNat_of_lt' (show x < 2 ^ 32 by omega)
  rw [Region.contains, Bool.and_eq_true, decide_eq_true_iff, decide_eq_true_iff,
    UInt32.le_iff_toNat_le, UInt32.lt_iff_toNat_lt, hnat]
  omega

theorem Entry.Linked.block_eq {t : SymbolTable} {e e' : Entry Instruction}
    (h : Entry.Linked t e e') : e.block = e'.block := by
  rw [Entry.block, Entry.block, h.place]
  rfl

/-- Labels may be replaced by their values without moving anything. -/
theorem blocksOf_linked {t : SymbolTable} {segments linked : List (Segment Instruction)}
    (h : List.Forall₂ (Segment.Linked t) segments linked) : blocksOf segments = blocksOf linked := by
  induction h with
  | nil => rfl
  | cons hs _ ih =>
    rw [blocksOf, List.flatMap_cons, ← blocksOf, ih, blocksOf, blocksOf, List.flatMap_cons]
    rw [map_eq_map_of_forall₂ (fun e e' he => he.block_eq) hs.entries]

/-- The blocks of a resolved program were given to it when it was settled. -/
theorem Program.blocks_of_resolve {w : Windows} {p q : Program} {t : SymbolTable}
    (h : p.resolve w = .ok (q, t)) :
    ∃ settled, p.expand.settle w = .ok (settled, t) ∧ q.blocks = settled.blocks := by
  obtain ⟨-, settled, hs, hl⟩ := Program.resolve_eq_ok.1 h
  refine ⟨settled, hs, funext fun k => ?_⟩
  cases k with
  | text m =>
    exact (blocksOf_linked (Program.link_linked hl (Program.settle_addressed hs).1 m)).symm
  | data m => rw [Program.blocks, Program.blocks, (Program.link_eq_ok hl).2]

/-- The blocks of a category are apart and inside its window, whatever the other windows are. -/
theorem Program.resolve_category_blocks {w : Windows} {p q : Program} {t : SymbolTable}
    (h : p.resolve w = .ok (q, t)) {k : Category} (hstop : (w.region k).stop.toNat ≤ 0xFFFFFFF8) :
    (q.blocks k).Pairwise Block.Apart ∧
      ∀ b ∈ q.blocks k, b.size ≠ 0 → b.Within (w.region k) := by
  obtain ⟨settled, hs, hblocks⟩ := Program.blocks_of_resolve h
  rw [hblocks]
  cases k with
  | text m =>
    obtain ⟨t₀, t₁, hm⟩ := (Program.settle_inv hs).1 m
    exact settle_blocks hstop hm
  | data m =>
    obtain ⟨t₀, t₁, hm⟩ := (Program.settle_inv hs).2 m
    exact settle_blocks hstop hm

/-- **Entries occupy memory of their own.** In a resolved program no two blocks have a byte in
common, and each lies inside the window of its category. -/
theorem Program.resolve_blocks {w : Windows} (hw : w.Usable) {p q : Program} {t : SymbolTable}
    (h : p.resolve w = .ok (q, t)) :
    (Category.all.flatMap q.blocks).Pairwise Block.Apart ∧
      ∀ k, ∀ b ∈ q.blocks k, b.size ≠ 0 → b.Within (w.region k) := by
  have hk := fun k => Program.resolve_category_blocks h (hw.stop_le k)
  refine ⟨List.pairwise_flatMap.2 ⟨fun k _ => (hk k).1, ?_⟩, fun k => (hk k).2⟩
  have hall : Category.all.Nodup := by decide
  refine hall.imp fun {k k'} hne b hb b' hb' x hx hx' => ?_
  exact hw.apart k k' hne (UInt32.ofNat x)
    (Block.contains_of_within ((hk k).2 b hb hx.size_ne_zero) hx)
    (Block.contains_of_within ((hk k').2 b' hb' hx'.size_ne_zero) hx')

end MipsAssembler
