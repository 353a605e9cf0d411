import MipsAssembler.Proofs.Stability

/-!
# Data segments with given starts

Data segments that are all given a start are placed there or refused. What decides is not the bytes
that they have but the space that they reserve, which is counted in double words
(`Segment.reserved`): the layout succeeds exactly if that space lies in the window, apart from that of
the other segments (`placeSegments_fixed_data`). Two segments whose bytes only just fit may therefore
be refused. Where the starts and the end of the window are double words, the bytes decide.
-/

namespace MipsAssembler

open Outcome

/-! ## Blocks of double words -/

namespace Block

/-- Blocks that hold bytes are apart if one of them ends before the other. -/
theorem apart_iff {b c : Block} (hb : 0 < b.size) (hc : 0 < c.size) :
    b.Apart c ↔ b.start + b.size ≤ c.start ∨ c.start + c.size ≤ b.start := by
  refine ⟨fun h => ?_, apart_of_le⟩
  by_contra hnot
  -- the later of the two starts is in both blocks
  refine h (max b.start c.start) ⟨?_, ?_⟩ ⟨?_, ?_⟩ <;> omega

/-- The block with its size filled up to double words. -/
def filled (b : Block) : Block := ⟨b.start, 8 * ((b.size + 7) / 8)⟩

@[simp] theorem filled_start (b : Block) : b.filled.start = b.start := rfl

@[simp] theorem filled_size (b : Block) : b.filled.size = 8 * ((b.size + 7) / 8) := rfl

theorem filled_size_pos {b : Block} (h : 0 < b.size) : 0 < b.filled.size := by
  rw [filled_size]
  omega

theorem isPart_filled (b : Block) : b.IsPart b.filled := by
  refine ⟨Nat.le_refl _, ?_⟩
  rw [filled_start, filled_size]
  omega

theorem IsPart.within {b c : Block} {r : Region} (h : b.IsPart c) (hc : c.Within r) : b.Within r :=
  ⟨Nat.le_trans hc.1 h.1, Nat.le_trans h.2 hc.2⟩

/-- Up to a double word, a block and its filling go equally far. -/
theorem filled_le_iff {b : Block} {x : Nat} (hb : 8 ∣ b.start) (hx : 8 ∣ x) :
    b.filled.start + b.filled.size ≤ x ↔ b.start + b.size ≤ x := by
  rw [filled_start, filled_size]
  omega

theorem filled_within_iff {b : Block} {r : Region} (hb : 8 ∣ b.start) (hr : 8 ∣ r.stop.toNat) :
    b.filled.Within r ↔ b.Within r :=
  and_congr_right fun _ => filled_le_iff hb hr

theorem filled_apart_iff {b c : Block} (hb : 8 ∣ b.start) (hc : 8 ∣ c.start) (hbsize : 0 < b.size)
    (hcsize : 0 < c.size) : b.filled.Apart c.filled ↔ b.Apart c := by
  rw [apart_iff (filled_size_pos hbsize) (filled_size_pos hcsize), apart_iff hbsize hcsize]
  exact or_congr (filled_le_iff hb hc) (filled_le_iff hc hb)

end Block

/-! ## Reserved space -/

section Reserved

variable {α : Type} [Sized α]

/-- The space that a data segment reserves at its start. -/
def Segment.reserved (s : Segment α) : Block := s.span.filled

theorem toNat_segmentSpace_data {m : Mode} {s : Segment α} (h : totalSize s.entries < 0xFFFFFFF8) :
    (segmentSpace (.data m) s).toNat = s.reserved.size := by
  have hsize : s.size.toNat = totalSize s.entries := toNat_segmentSize (by omega)
  have hround : Payload.nextMultiple s.size.toNat 8 = 8 * ((totalSize s.entries + 7) / 8) := by
    have height : ¬(8 : UInt32) ≤ 1 ∧ (8 : UInt32).toNat = 8 := by decide
    simp only [Payload.nextMultiple, hsize, height, false_or]
    split <;> omega
  have hspace : segmentSpace (.data m) s = roundUp s.size 8 := rfl
  rw [hspace, Payload.toNat_roundUp (by omega), hround]
  rfl

variable {m : Mode} {window : Region} {segments : List (Segment α)}

/-- Data segments with starts and bytes lie in the window as placement demands it exactly if their
reserved space does. -/
theorem placed_data_iff (hwindow : window.start < window.stop)
    (hstart : ∀ s ∈ segments, ∃ a, addressOf? s.start = some a)
    (hsize : ∀ s ∈ segments, 0 < totalSize s.entries ∧ totalSize s.entries < 0xFFFFFFF8) :
    Placed (.data m) window segments ↔
      (∀ s ∈ segments, s.reserved.Within window) ∧
        segments.Pairwise fun s s' => s.reserved.Apart s'.reserved := by
  have hlast := Region.toNat_last hwindow
  have hspace : ∀ s ∈ segments, (segmentSpace (.data m) s).toNat = s.reserved.size := fun s hs =>
    toNat_segmentSpace_data (hsize s hs).2
  have hpos : ∀ s ∈ segments, 0 < s.reserved.size := fun s hs =>
    Block.filled_size_pos (hsize s hs).1
  have hne : ∀ s ∈ segments, segmentSpace (.data m) s ≠ 0 := by
    intro s hs hzero
    have hs' := hspace s hs
    rw [hzero, UInt32.toNat_zero] at hs'
    exact (hpos s hs).ne hs'
  constructor
  · intro h
    refine ⟨fun s hs => ?_, h.apart.imp_of_mem fun hs hs' hapart => ?_⟩
    · have hinside := h.inside s hs (hne s hs)
      rwa [hspace s hs, hlast] at hinside
    · have hcases := hapart (hne _ hs) (hne _ hs')
      rw [hspace _ hs, hspace _ hs'] at hcases
      exact Block.apart_of_le hcases
  · rintro ⟨hinside, hapart⟩
    refine ⟨hstart, fun htext => absurd htext Bool.false_ne_true, fun s hs _ => ?_,
      hapart.imp_of_mem fun hs hs' h _ _ => ?_⟩
    · rw [hspace s hs, hlast]
      exact hinside s hs
    · rw [hspace _ hs, hspace _ hs']
      exact (Block.apart_iff (hpos _ hs) (hpos _ hs')).1 h

end Reserved

/-- **Data with given starts.** Data segments in a window that passes the check, each of them with a
start and with bytes, are placed exactly if the space that they reserve lies in the window and apart
from one another. They stay where they are, with their bytes in the window and apart. If the starts
and the end of the window are double words, they are placed exactly if that holds of their bytes. -/
theorem placeSegments_fixed_data {m : Mode} {window : Region} {segments : List (Segment Payload)}
    (hwindow : Windows.checkWindow window = .ok ())
    (hstart : ∀ s ∈ segments, ∃ a, a ≠ 0 ∧ addressOf? s.start = some a)
    (hsize : ∀ s ∈ segments, 0 < totalSize s.entries ∧ totalSize s.entries < 0xFFFFFFF8) :
    ((∃ placed, placeSegments (.data m) window segments = .ok placed) ↔
        (∀ s ∈ segments, s.reserved.Within window) ∧
          segments.Pairwise fun s s' => s.reserved.Apart s'.reserved) ∧
      (∀ placed, placeSegments (.data m) window segments = .ok placed →
        placed = segments ∧ (∀ s ∈ segments, s.span.Within window) ∧
          segments.Pairwise fun s s' => s.span.Apart s'.span) ∧
      (8 ∣ window.stop.toNat → (∀ s ∈ segments, 8 ∣ s.startAddress.toNat) →
        ((∃ placed, placeSegments (.data m) window segments = .ok placed) ↔
          (∀ s ∈ segments, s.span.Within window) ∧
            segments.Pairwise fun s s' => s.span.Apart s'.span)) := by
  have hgiven : ∀ s ∈ segments, ∃ a, addressOf? s.start = some a := fun s hs =>
    (hstart s hs).imp fun _ ha => ha.2
  have hsame : ∀ placed, placeSegments (.data m) window segments = .ok placed →
      placed = segments := fun placed h => placeSegments_given h hgiven
  have hiff := placed_data_iff (m := m) (Windows.checkWindow_eq_ok.1 hwindow).1 hgiven hsize
  have hplaced : (∃ placed, placeSegments (.data m) window segments = .ok placed) ↔
      Placed (.data m) window segments := by
    constructor
    · rintro ⟨placed, h⟩
      obtain rfl := hsame placed h
      exact placed_of_placeSegments (fun htext => absurd htext Bool.false_ne_true) h
    · exact fun h => ⟨segments, h.placeSegments_eq⟩
  refine ⟨hplaced.trans hiff, fun placed h => ⟨hsame placed h, ?_⟩, fun hstop hwords => ?_⟩
  · obtain ⟨hinside, hapart⟩ := hiff.1 (hplaced.1 ⟨placed, h⟩)
    exact ⟨fun s hs => s.span.isPart_filled.within (hinside s hs),
      hapart.imp fun h => h.of_isPart (Block.isPart_filled _) (Block.isPart_filled _)⟩
  · rw [hplaced, hiff]
    refine and_congr (forall₂_congr fun s hs => ?_) (List.Pairwise.iff_of_mem fun hs hs' => ?_)
    · exact Block.filled_within_iff (hwords s hs) hstop
    · exact Block.filled_apart_iff (hwords _ hs) (hwords _ hs') (hsize _ hs).1 (hsize _ hs').1

/-- A data segment at an address with one word, which stands in a line. -/
def wordAt (a : UInt32) (line : Int) : Segment Payload where
  start := some { address := some a }
  entries := [{ place := none, item := .words [1] 0, line }]

theorem addressOf?_wordAt (a : UInt32) (line : Int) : addressOf? (wordAt a line).start = some a := rfl

theorem totalSize_wordAt (a : UInt32) (line : Int) : totalSize (wordAt a line).entries = 4 := rfl

theorem span_wordAt (a : UInt32) (line : Int) : (wordAt a line).span = ⟨a.toNat, 4⟩ := rfl

theorem reserved_wordAt (a : UInt32) (line : Int) : (wordAt a line).reserved = ⟨a.toNat, 8⟩ := by
  simp [Segment.reserved, span_wordAt, Block.filled]

/-- Words that reserve a double word each, one next to another and one at the end of the window. -/
theorem placeSegments_fixed_data_touching :
    placeSegments (.data .user) .staticData
        [wordAt 0x10000010 2, wordAt 0x7FFFFFF8 4, wordAt 0x10000008 6] =
      .ok [wordAt 0x10000010 2, wordAt 0x7FFFFFF8 4, wordAt 0x10000008 6] := by
  have hfixed := @placeSegments_fixed_data .user .staticData
    [wordAt 0x10000010 2, wordAt 0x7FFFFFF8 4, wordAt 0x10000008 6]
    (Windows.checkWindow_eq_ok.2 (by decide)) (by simp [addressOf?_wordAt])
    (by simp [totalSize_wordAt])
  have hinside : ∀ s ∈ [wordAt 0x10000010 2, wordAt 0x7FFFFFF8 4, wordAt 0x10000008 6],
      s.reserved.Within .staticData := by
    simp [reserved_wordAt, Block.Within, Region.staticData]
  have hapart : [wordAt 0x10000010 2, wordAt 0x7FFFFFF8 4, wordAt 0x10000008 6].Pairwise
      fun s s' => s.reserved.Apart s'.reserved := by
    simp [reserved_wordAt, Block.apart_iff]
  obtain ⟨placed, h⟩ := hfixed.1.2 ⟨hinside, hapart⟩
  rwa [(hfixed.2.1 placed h).1] at h

/-- Two words next to one another, each in a segment of its own. -/
def adjacentSource : ByteString := ".data 0x10000000\n.word 1\n.data 0x10000004\n.word 1\n"

/-- The words fit, and yet they are refused. -/
theorem placeSegments_adjacent_words :
    (∃ p, Program.parse adjacentSource = .ok p ∧
        p.userData = [wordAt 0x10000000 2, wordAt 0x10000004 4]) ∧
      Windows.checkWindow .staticData = .ok () ∧
      (∀ s ∈ [wordAt 0x10000000 2, wordAt 0x10000004 4],
        (∃ a, a ≠ 0 ∧ addressOf? s.start = some a) ∧
          0 < totalSize s.entries ∧ totalSize s.entries < 0xFFFFFFF8 ∧
          s.span.Within .staticData) ∧
      (wordAt 0x10000000 2).span.Apart (wordAt 0x10000004 4).span ∧
      ∀ placed, placeSegments (.data .user) .staticData
        [wordAt 0x10000000 2, wordAt 0x10000004 4] ≠ .ok placed := by
  refine ⟨?_, Windows.checkWindow_eq_ok.2 (by decide), ?_, ?_, fun placed hplaced => ?_⟩
  · have hdata : (Program.parse adjacentSource).toOption.map (·.userData) =
        some [wordAt 0x10000000 2, wordAt 0x10000004 4] := by decide +kernel
    obtain ⟨p, hp, hdata⟩ := Option.map_eq_some_iff.1 hdata
    exact ⟨p, eq_ok_of_toOption hp, hdata⟩
  · simp [addressOf?_wordAt, totalSize_wordAt, span_wordAt, Block.Within, Region.staticData]
  · simp [span_wordAt, Block.apart_iff]
  · have hnone : (placeSegments (.data .user) .staticData
        [wordAt 0x10000000 2, wordAt 0x10000004 4]).toOption = none := by decide +kernel
    rw [hplaced] at hnone
    cases hnone

end MipsAssembler
