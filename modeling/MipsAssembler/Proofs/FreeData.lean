import MipsAssembler.Proofs.Emission
import MipsAssembler.Proofs.Image
import MipsAssembler.Proofs.Padding

/-!
# Data segments that are placed freely

A data segment without an address goes where it fits first. The space of data segments is counted in
double words, so that free segments next to one another stay at double words. A segment that is given
another start takes those after it with it: they start as many bytes behind a double word as it does
(`ShiftedBy`). There is no other way to leave the double words, and in a segment that starts at one,
numbers lie at multiples of their size (`assemble_free_data`).
-/

namespace MipsAssembler

open ByteString Outcome

/-! ## Where free segments start -/

theorem placeSegments_no_space {α : Type} [Sized α] {k : Category} {window : Region}
    {segments placed : List (Segment α)} (h : placeSegments k window segments = .ok placed) :
    List.Forall₂ (fun s s' => addressOf? s.start = none → segmentSpace k s = 0 →
      s'.startAddress = window.start) segments placed := by
  obtain ⟨requests, extents, hr, hd, rfl⟩ := placeSegments_inv h
  rw [List.forall₂_map_right_iff]
  conv => arg 2; rw [← List.zipIdx_map_fst 0 segments]
  rw [List.forall₂_map_left_iff, List.forall₂_same]
  rintro ⟨s, i⟩ hs hstart hspace
  have hnone : extentOf? extents i = none := by
    rw [Option.eq_none_iff_forall_ne_some]
    intro e hfound
    obtain ⟨he, -, hsize, -, hcovers⟩ := extentOf?_spec hr hd hs hfound
    have hbounds := (hcovers.bounds_of_mem he).2.1
    rw [UInt32.le_iff_toNat_le] at hbounds
    rw [hspace, UInt32.toNat_zero] at hsize
    omega
  dsimp only at hstart ⊢
  rw [Segment.settleStart, hnone, hstart]
  rfl

/-- Some segment with space is given a start that is no double word, not above the address `a`, and as
far behind a double word as `a`. -/
def ShiftedBy (m : Mode) (segments : List (Segment Payload)) (a : Nat) : Prop :=
  ∃ g ∈ segments, segmentSpace (.data m) g ≠ 0 ∧
    ∃ b, addressOf? g.start = some b ∧ ¬8 ∣ b.toNat ∧ b.toNat ≤ a ∧ b.toNat % 8 = a % 8

/-- The addresses at double words and those shifted by a given start are closed under placing a segment
of data behind another. -/
theorem placeSegments_free {m : Mode} {window : Region} {segments placed : List (Segment Payload)}
    (hwindow : 8 ∣ window.start.toNat) (h : placeSegments (.data m) window segments = .ok placed) :
    List.Forall₂ (fun s s' => addressOf? s.start = none →
      8 ∣ s'.startAddress.toNat ∨ ShiftedBy m segments s'.startAddress.toNat) segments placed := by
  have hgiven : ∀ s ∈ segments, segmentSpace (.data m) s ≠ 0 → ∀ a, addressOf? s.start = some a →
      ((Category.data m).isText = true → a % 4 = 0) →
      8 ∣ a.toNat ∨ ShiftedBy m segments a.toNat := by
    intro s hs hspace a ha _
    by_cases hdvd : 8 ∣ a.toNat
    · exact .inl hdvd
    · exact .inr ⟨s, hs, hspace, a, ha, hdvd, Nat.le_refl _, rfl⟩
  have hnext : ∀ s ∈ segments, ∀ a, 8 ∣ a ∨ ShiftedBy m segments a →
      8 ∣ a + (segmentSpace (.data m) s).toNat ∨
        ShiftedBy m segments (a + (segmentSpace (.data m) s).toNat) := by
    intro s _ a ha
    have hspace : 8 ∣ (segmentSpace (.data m) s).toNat := segmentAlign_dvd_space (.data m) s
    rcases ha with ha | ⟨g, hg, hgspace, b, hb, hnot, hle, hmod⟩
    · exact .inl (Nat.dvd_add ha hspace)
    · exact .inr ⟨g, hg, hgspace, b, hb, hnot, by omega, by omega⟩
  have hspaces := forall₂_mem ((placeSegments_entries h).mp (fun _ _ => And.intro)
    (placeSegments_no_space h))
  refine hspaces.imp ?_
  rintro s s' ⟨-, hs', hentries, hno⟩ hfree
  by_cases hspace : segmentSpace (.data m) s = 0
  · rw [hno hfree hspace]
    exact .inl hwindow
  · refine placeSegments_startIn (.inl hwindow) hgiven hnext h hs' ?_
    rwa [segmentSpace, Segment.size, hentries]

namespace Program

variable {w : Windows} {p q : Program} {t : SymbolTable}

theorem resolve_free {m : Mode} (hwindow : 8 ∣ (w.region (.data m)).start.toNat)
    (h : p.resolve w = .ok (q, t)) :
    List.Forall₂ (fun s s' => addressOf? s.start = none →
      8 ∣ s'.startAddress.toNat ∨ ShiftedBy m (p.data m) s'.startAddress.toNat)
      (p.data m) (q.data m) := by
  obtain ⟨-, placed, hsettles, hplaces⟩ := Program.resolve_settles h
  have hplace := hsettles.place (.data m)
  rw [segments_expand_data] at hplace
  have hsame := hplaces (.data m)
  rw [List.forall₂_map_left_iff] at hsame
  refine forall₂_trans (fun s s₁ s' hfree hsame hnone => ?_) (placeSegments_free hwindow hplace) hsame
  rw [Segment.startAddress, hsame.start]
  exact hfree hnone

/-! ## Addresses of numbers -/

theorem resolve_data_items (h : p.resolve w = .ok (q, t)) (m : Mode) :
    List.Forall₂ (fun s s' => s'.entries.map (·.item) = s.entries.map (·.item))
      (p.data m) (q.data m) := by
  obtain ⟨-, settled, hset, hlink⟩ := Program.resolve_eq_ok.1 h
  obtain ⟨t₀, t₁, hm⟩ := (Program.settle_inv hset).2 m
  rw [(Program.link_eq_ok hlink).2 m, ← p.segments_expand_data m]
  refine (settle_located hm).imp fun s s' hentries => (map_eq_map_of_forall₂ ?_ hentries).symm
  rintro e _ ⟨a, rfl⟩
  rfl

end Program

theorem Segment.Mapped.alignment_dvd {t : SymbolTable} {s s' : Segment Payload}
    (h : Segment.Mapped t s s') (hitems : s'.entries.map (·.item) = s.entries.map (·.item))
    (haligned : NaturallyAligned s.entries) (hstart : 8 ∣ s'.startAddress.toNat) :
    ∀ e ∈ s'.entries, ∃ a, addressOf? e.place = some a ∧ e.item.alignment ∣ a.toNat := by
  intro e he
  obtain ⟨before, e₀, after, a, hsplit, hget, ha, -, hnat⟩ := h.exists_of_mem he
  have hitem : e.item = e₀.item := by
    have hindex := congrArg (fun items => items[before.length]?) hitems
    simp only [List.getElem?_map, hget, hsplit] at hindex
    simpa using hindex
  have height : e.item.alignment ∣ 8 := by
    cases e.item with
    | halves => exact ⟨4, rfl⟩
    | words => exact ⟨2, rfl⟩
    | bytes | text | space => exact Nat.one_dvd 8
  refine ⟨a, ha, ?_⟩
  rw [hnat]
  exact Nat.dvd_add (Nat.dvd_trans height hstart) (hitem ▸ haligned before e₀ after hsplit)

/-- **Free data segments leave double words only behind a given start that is none.** In a source that
is assembled in the standard windows, a data segment without an address starts at a double word, or as
many bytes behind one as some segment of its category that was given such a start. If it starts at a
double word, its words lie at multiples of four and its halfwords at multiples of two. -/
theorem assemble_free_data {src : ByteString} {r : Assembly} (h : assemble {} src = .ok r) :
    ∃ p, Program.parse src = .ok p ∧ ∀ m, List.Forall₂ (fun s s' => addressOf? s.start = none →
      (8 ∣ s'.startAddress.toNat ∨ ShiftedBy m (p.data m) s'.startAddress.toNat) ∧
      (8 ∣ s'.startAddress.toNat → ∀ e ∈ s'.entries, ∃ a, addressOf? e.place = some a ∧
        e.item.alignment ∣ a.toNat)) (p.data m) (r.program.data m) := by
  obtain ⟨p, hparse, hresolve, -⟩ := assemble_eq_ok h
  obtain ⟨lines, -, hlaid⟩ := Program.parse_laid hparse
  refine ⟨p, hparse, fun m => ?_⟩
  have hwindow : 8 ∣ ((({} : Windows).region (.data m)).start).toNat := by cases m <;> decide
  have hmapped := (Program.parse_written hparse).mapped hresolve (.data m)
  rw [Program.segments_expand_data] at hmapped
  have hall := forall₂_mem ((Program.resolve_free hwindow hresolve).mp (fun _ _ => And.intro)
    (hmapped.mp (fun _ _ => And.intro) (Program.resolve_data_items hresolve m)))
  refine hall.imp ?_
  rintro s s' ⟨hs, -, hfree, hmap, hitems⟩ hnone
  refine ⟨hfree hnone, fun hstart => ?_⟩
  obtain ⟨i, hi⟩ := List.mem_iff_getElem?.1 hs
  exact hmap.alignment_dvd hitems (hlaid m i s hi).naturallyAligned hstart

/-- A byte at a given odd address, and a word in a segment without an address. -/
def shiftedSource : ByteString := ".data 0x10000001\n.byte 1\n.data\nx: .word 5\n"

/-- The segment with the word starts nine bytes behind the window, eight behind the byte, and so the
word is not at a multiple of four. -/
theorem assemble_shifted_word :
    ∃ p r, Program.parse shiftedSource = .ok p ∧ assemble {} shiftedSource = .ok r ∧
      (p.data .user).map (fun s => addressOf? s.start) = [some 0x10000001, none] ∧
      (r.program.data .user).map (fun s => s.startAddress) = [0x10000001, 0x10000009] ∧
      (r.program.data .user).map (fun s => s.entries.map fun e => (e.item, addressOf? e.place)) =
        [[(.bytes [1] 0, some 0x10000001)], [(.words [5] 0, some 0x10000009)]] ∧
      ¬8 ∣ (0x10000009 : UInt32).toNat ∧ ¬4 ∣ (0x10000009 : UInt32).toNat := by
  have hparsed : ((Program.parse shiftedSource).toOption.map fun p =>
      (p.data .user).map fun s => addressOf? s.start) = some [some 0x10000001, none] := by
    decide +kernel
  have hplaced : ((assemble {} shiftedSource).toOption.map fun r =>
      ((r.program.data .user).map (fun s => s.startAddress),
        (r.program.data .user).map fun s => s.entries.map fun e => (e.item, addressOf? e.place))) =
      some ([0x10000001, 0x10000009],
        [[(.bytes [1] 0, some 0x10000001)], [(.words [5] 0, some 0x10000009)]]) := by
    decide +kernel
  obtain ⟨p, hp, hstarts⟩ := Option.map_eq_some_iff.1 hparsed
  obtain ⟨r, hr, hvalues⟩ := Option.map_eq_some_iff.1 hplaced
  obtain ⟨hplaces, hentries⟩ := Prod.mk.inj hvalues
  exact ⟨p, r, eq_ok_of_toOption hp, eq_ok_of_toOption hr, hstarts, hplaces, hentries, by decide,
    by decide⟩

/-- Two free segments around one with a given start at a double word, and the kernel's data behind a
given odd start. -/
def scatteredData : ByteString :=
  ".data\n.byte 1\n.half 2\n.data 0x10000008\n.word 3\n.data\n.byte 4\n.word 5\n" ++
    ".kdata 0x90000003\n.byte 6\n.kdata\n.half 7\n"

/-- The user's free segments start at double words, the second after the given one, and their numbers
lie at multiples of their size; the kernel's free segment is shifted by three bytes. -/
theorem assemble_free_data_scattered :
    ∃ p r s, Program.parse scatteredData = .ok p ∧ assemble {} scatteredData = .ok r ∧
      (r.program.data .user)[2]? = some s ∧ s.startAddress = 0x10000010 ∧
      (∀ e ∈ s.entries, ∃ a, addressOf? e.place = some a ∧ e.item.alignment ∣ a.toNat) ∧
      ShiftedBy .kernel (p.data .kernel) (0x9000000B : UInt32).toNat := by
  have hparsed : ((Program.parse scatteredData).toOption.map fun p =>
      ((p.data .user)[2]?.map fun s => addressOf? s.start,
        (p.data .kernel)[1]?.map fun s => addressOf? s.start)) = some (some none, some none) := by
    decide +kernel
  have hplaced : ((assemble {} scatteredData).toOption.map fun r =>
      ((r.program.data .user)[2]?.map fun s => s.startAddress,
        (r.program.data .kernel)[1]?.map fun s => s.startAddress)) =
      some (some 0x10000010, some 0x9000000B) := by decide +kernel
  obtain ⟨p, hp, hstarts⟩ := Option.map_eq_some_iff.1 hparsed
  obtain ⟨r, hr, hplaces⟩ := Option.map_eq_some_iff.1 hplaced
  obtain ⟨huser, hkernel⟩ := Prod.mk.inj hstarts
  obtain ⟨huser', hkernel'⟩ := Prod.mk.inj hplaces
  obtain ⟨s, hs, hnone⟩ := Option.map_eq_some_iff.1 huser
  obtain ⟨s', hs', hstart⟩ := Option.map_eq_some_iff.1 huser'
  obtain ⟨g, hg, hfree⟩ := Option.map_eq_some_iff.1 hkernel
  obtain ⟨g', hg', hshifted⟩ := Option.map_eq_some_iff.1 hkernel'
  have hassemble := eq_ok_of_toOption hr
  obtain ⟨p', hparse, hdata⟩ := assemble_free_data hassemble
  obtain rfl := Except.ok.inj ((eq_ok_of_toOption hp).symm.trans hparse)
  obtain ⟨-, haligned⟩ := forall₂_getElem? (hdata .user) hs hs' hnone
  obtain ⟨hcases, -⟩ := forall₂_getElem? (hdata .kernel) hg hg' hfree
  rw [hstart] at haligned
  rw [hshifted] at hcases
  exact ⟨p, r, s', hparse, hassemble, hs', hstart, haligned (by decide),
    hcases.resolve_left (by decide)⟩

end MipsAssembler
