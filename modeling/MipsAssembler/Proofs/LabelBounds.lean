import MipsAssembler.Proofs.Stability

/-!
# Labels and their windows

An address that an entry gets is never past the end of the window, and not before its start if the
segment was put there by the layout: because it has no start of its own, or because it takes space. An
empty data segment with a start is neither, so that it keeps any start below the end of the window,
and its labels with it. `Segment.LiesIn` says what a segment has of its window, `Segment.Bounds` what
its entries have, and `Program.resolve_bounds` says it of all labels of a program.
-/

namespace MipsAssembler

open ByteString Outcome

/-! ## Segments -/

/-- A segment of a category and the one that it becomes: it keeps its start, begins inside the window
unless it has a start and takes no space, and ends inside the window. -/
structure Segment.LiesIn (k : Category) (window : Region) (s s' : Segment k.Item) : Prop where
  given : ∀ b, addressOf? s.start = some b → s'.startAddress = b
  start_le : addressOf? s.start = none ∨ segmentSpace k s ≠ 0 → window.start ≤ s'.startAddress
  le_stop : s.entries ≠ [] → s'.startAddress.toNat + totalSize s.entries ≤ window.stop.toNat

/-- A segment that was placed begins inside the window, unless it has a start and takes no space. -/
theorem placeSegments_start_le {α : Type} [Sized α] {k : Category} {window : Region}
    {segments placed : List (Segment α)} (h : placeSegments k window segments = .ok placed) :
    List.Forall₂ (fun s s' => s'.entries = s.entries ∧
      (∀ b, addressOf? s.start = some b → s'.startAddress = b) ∧
      (addressOf? s.start = none ∨ segmentSpace k s ≠ 0 → window.start ≤ s'.startAddress))
      segments placed := by
  have hboth := (placeSegments_starts h).mp (fun _ _ => And.intro) (placeSegments_entries h)
  refine (forall₂_mem hboth).imp ?_
  rintro s s' ⟨-, hs', ⟨a, ha, hstart⟩, hentries⟩
  have haddress : s'.startAddress = a := by rw [Segment.startAddress, ha, Option.getD_some]
  refine ⟨hentries, fun b hb => ?_, ?_⟩
  · rcases hstart with hstart | ⟨hnone, -⟩
    · rw [haddress]
      exact Option.some.inj (hstart.symm.trans hb)
    · cases hnone.symm.trans hb
  · rintro (hnone | hspace)
    · rcases hstart with hstart | ⟨-, hle⟩
      · cases hnone.symm.trans hstart
      · rwa [haddress]
    · have hsame : segmentSpace k s' = segmentSpace k s := by
        rw [segmentSpace, segmentSpace, Segment.size, Segment.size, hentries]
      exact UInt32.le_iff_toNat_le.2 (placeSegments_inside h hs' (hsame ▸ hspace)).1

theorem Program.resolve_liesIn {w : Windows} {p q : Program} {t : SymbolTable}
    (h : p.resolve w = .ok (q, t)) (k : Category) :
    List.Forall₂ (Segment.LiesIn k (w.region k)) (p.expand.segments k) (q.segments k) := by
  obtain ⟨-, placed, hsettles, hplaces⟩ := Program.resolve_settles h
  have hplaced := forall₂_mem (placeSegments_start_le (hsettles.place k))
  refine forall₂_trans ?_ hplaced (List.forall₂_map_left_iff.1 (hplaces k))
  rintro s s₁ s' ⟨-, hs₁, hentries, hgiven, hle⟩ hsame
  have hstart : s'.startAddress = s₁.startAddress := hsame.startAddress_eq
  refine ⟨fun b hb => hstart.trans (hgiven b hb), fun hlow => ?_, fun hne => ?_⟩
  · rw [hstart]
    exact hle hlow
  · rw [hstart, ← hentries]
    exact hsettles.entries_fit hs₁ (hentries ▸ hne)

theorem segmentSpace_ne_zero {k : Category} {s : Segment k.Item} (hne : s.entries ≠ [])
    (hfits : totalSize s.entries < 0x100000000)
    (h : k.isText = true ∨ 0 < totalSize s.entries ∧ totalSize s.entries ≤ 0xFFFFFFF8) :
    segmentSpace k s ≠ 0 := by
  cases k with
  | text m => exact segmentSpace_text_ne_zero hne hfits
  | data m =>
    obtain htext | ⟨hpos, hle⟩ := h
    · cases htext
    · intro hzero
      have hspace := size_le_segmentSpace (.data m) (s := s) hle
      rw [hzero, UInt32.toNat_zero] at hspace
      exact Nat.not_le.2 hpos hspace

/-! ## Entries -/

/-- How the address `a` of an entry of a segment lies to the window. It is not past its end. It is not
before its start either if the segment holds instructions, has no start of its own, or has bytes that
can be rounded up; in a segment without bytes it is the start of the segment. -/
structure Segment.Bounds (k : Category) (window : Region) (s : Segment k.Item) (a : UInt32) :
    Prop where
  le_stop : a ≤ window.stop
  given : ∀ b, addressOf? s.start = some b → b ≤ a
  free : k.isText = true ∨ addressOf? s.start = none → window.start ≤ a
  filled : 0 < totalSize s.entries → totalSize s.entries ≤ 0xFFFFFFF8 → window.start ≤ a
  empty : totalSize s.entries = 0 → ∀ b, addressOf? s.start = some b → a = b

theorem Segment.LiesIn.bounds {k : Category} {window : Region} {s s' : Segment k.Item} {a : UInt32}
    {before after : List (Entry k.Item)} {e : Entry k.Item} (h : Segment.LiesIn k window s s')
    (hsplit : s.entries = before ++ e :: after)
    (ha : a.toNat = s'.startAddress.toNat + totalSize before) : s.Bounds k window a := by
  have hne : s.entries ≠ [] := by simp [hsplit]
  have hstop := h.le_stop hne
  have hwindow := window.stop.toNat_lt
  have hbefore : totalSize before ≤ totalSize s.entries := by
    rw [hsplit, totalSize_append]
    exact Nat.le_add_right ..
  have hstart : s'.startAddress ≤ a := by
    rw [UInt32.le_iff_toNat_le]
    omega
  have hspace := segmentSpace_ne_zero hne (by omega)
  refine ⟨?_, fun b hb => h.given b hb ▸ hstart, ?_, fun hpos hle => ?_, fun hzero b hb => ?_⟩
  · rw [UInt32.le_iff_toNat_le]
    omega
  · rintro (htext | hnone)
    · exact UInt32.le_trans (h.start_le (.inr (hspace (.inl htext)))) hstart
    · exact UInt32.le_trans (h.start_le (.inl hnone)) hstart
  · exact UInt32.le_trans (h.start_le (.inr (hspace (.inr ⟨hpos, hle⟩)))) hstart
  · rw [← h.given b hb, ← UInt32.toNat_inj]
    omega

/-- **Labels lie in their windows.** In a program that is read from a source and resolved, every entry
has an address, which is the value of its labels and not past the end of the window of its category. It
is not before the start of the window either, unless the entry is in a data segment without bytes that
is given a start: the address is that start then. Left open is where data segments begin that are given
a start and are too large to be rounded up to double words. -/
theorem Program.resolve_bounds {src : ByteString} {w : Windows} {p q : Program} {t : SymbolTable}
    (hparse : Program.parse src = .ok p) (h : p.resolve w = .ok (q, t)) (k : Category) :
    List.Forall₂ (fun s s' => ∀ e ∈ s'.entries, ∃ a, addressOf? e.place = some a ∧
        (∀ n ∈ labelsOf e.place, t.lookup n = some a) ∧ Segment.Bounds k (w.region k) s a)
      (p.expand.segments k) (q.segments k) := by
  have hmapped := (Program.parse_written hparse).mapped h k
  refine (hmapped.mp (fun _ _ => And.intro) (Program.resolve_liesIn h k)).imp ?_
  rintro s s' ⟨hmapped, hlies⟩ e' he'
  obtain ⟨before, e, after, -, hsplit, hget, -⟩ := hmapped.exists_of_mem he'
  obtain ⟨e₁, a, hget₁, hlabels, ha, -, hnat, hmaps⟩ := hmapped.entry before e after hsplit
  obtain rfl : e₁ = e' := Option.some.inj (hget₁.symm.trans hget)
  exact ⟨a, ha, fun n hn => (hmaps n (hlabels ▸ hn)).whole, hlies.bounds hsplit hnat⟩

/-- Labels before, between and behind bytes, and labels of empty segments with and without a start. -/
def boundedSource : ByteString :=
  ".data 8\nlow: .space 0\n.data\nfree: .space 0\n.data\nfirst: .byte 1\nlast: .space 0\n" ++
    ".text\nmain: la $t0, low\n"

/-- The label of the empty segment with a start is the only one below the windows. -/
theorem Program.resolve_bounds_empty :
    ∃ p q t, Program.parse boundedSource = .ok p ∧ p.resolve {} = .ok (q, t) ∧
      t.lookup "low" = some 8 ∧ t.lookup "free" = some 0x10000000 ∧
      t.lookup "last" = some 0x10000001 ∧ t.lookup "main" = some 0x0A000000 ∧
      ∀ k, List.Forall₂ (fun s s' => ∀ e ∈ s'.entries, ∃ a, addressOf? e.place = some a ∧
          (∀ n ∈ labelsOf e.place, t.lookup n = some a) ∧
          Segment.Bounds k (Windows.region {} k) s a)
        (p.expand.segments k) (q.segments k) := by
  have hvalues : ((Program.parse boundedSource).toOption.bind fun p =>
      (p.resolve {}).toOption.map fun r => (r.2.lookup "low", r.2.lookup "free",
        r.2.lookup "last", r.2.lookup "main")) =
      some (some 8, some 0x10000000, some 0x10000001, some 0x0A000000) := by decide +kernel
  obtain ⟨p, hp, hvalues⟩ := Option.bind_eq_some_iff.1 hvalues
  obtain ⟨⟨q, t⟩, hq, hvalues⟩ := Option.map_eq_some_iff.1 hvalues
  simp only [Prod.mk.injEq] at hvalues
  obtain ⟨hlow, hfree, hlast, hmain⟩ := hvalues
  have hparse := eq_ok_of_toOption hp
  have hresolve := eq_ok_of_toOption hq
  exact ⟨p, q, t, hparse, hresolve, hlow, hfree, hlast, hmain,
    Program.resolve_bounds hparse hresolve⟩

/-- An empty data segment that is given a start below the window. -/
def lowSource : ByteString := ".data 4\nx: .space 0\n"

theorem Program.resolve_low_label :
    ∃ p q t, Program.parse lowSource = .ok p ∧ p.resolve {} = .ok (q, t) ∧
      (∃ s ∈ q.userData, ∃ e ∈ s.entries, addressOf? e.place = some 4 ∧ labelsOf e.place = ["x"]) ∧
      t.lookup "x" = some 4 ∧ ¬(Windows.region {} (.data .user)).start ≤ 4 := by
  have hvalues : ((Program.parse lowSource).toOption.bind fun p =>
      (p.resolve {}).toOption.map fun r => (r.1.userData.map fun s => s.entries.map (·.place),
        r.2.lookup "x")) =
      some ([[some { address := some 4, labels := ["x"] }]], some 4) := by decide +kernel
  obtain ⟨p, hp, hvalues⟩ := Option.bind_eq_some_iff.1 hvalues
  obtain ⟨⟨q, t⟩, hq, hvalues⟩ := Option.map_eq_some_iff.1 hvalues
  obtain ⟨hplaces, hvalue⟩ := Prod.mk.inj hvalues
  obtain ⟨s, hs, hentries⟩ : ∃ s ∈ q.userData, s.entries.map (·.place) =
      [some { address := some 4, labels := ["x"] }] := List.mem_map.1 (by simp [hplaces])
  obtain ⟨e, he, hplace⟩ : ∃ e ∈ s.entries, e.place = some { address := some 4, labels := ["x"] } :=
    List.mem_map.1 (by simp [hentries])
  exact ⟨p, q, t, eq_ok_of_toOption hp, eq_ok_of_toOption hq,
    ⟨s, hs, e, he, by rw [hplace]; rfl, by rw [hplace]; rfl⟩, hvalue, by decide⟩

end MipsAssembler
