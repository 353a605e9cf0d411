import MipsAssembler.Proofs.Acceptance
import MipsAssembler.Proofs.Emission
import MipsAssembler.Proofs.PseudoInstructions

/-!
# Resolving twice

A resolved program resolves to itself (`Program.resolve_resolve`). The second time everything takes
another way: all segments have a start, so that first fit is not asked and each of them must be
found room at its address, and no instruction names a label.

* `Placed` collects what the first placement guarantees: the segments start at words where they must
  and take their space inside the window, apart from one another. Segments like that are placed
  where they are (`Placed.placeSegments_eq`).
* Entries that have their addresses keep them (`assignFrom_of_places`), and so the labels are defined
  as before.
* Instructions of the machine are neither expanded nor linked (`Instruction.link_of_isResolved`).
-/

namespace MipsAssembler

open ByteString Outcome Placement

variable {α : Type} [Sized α]

/-! ## Placing segments again -/

/-- A place that has its address keeps it. -/
theorem placeAt_of_addressOf? {a : UInt32} {place : Option Location} (h : addressOf? place = some a) :
    placeAt a place = place := by
  cases place with
  | none => cases h
  | some l =>
    obtain ⟨address, labels⟩ := l
    obtain rfl : address = some a := h
    rfl

/-- Segments that have a start each and lie in the window as the category demands it. -/
structure Placed (k : Category) (window : Region) (segments : List (Segment α)) : Prop where
  start : ∀ s ∈ segments, ∃ a, addressOf? s.start = some a
  aligned : k.isText = true → ∀ s ∈ segments, segmentSpace k s ≠ 0 → 4 ∣ s.startAddress.toNat
  inside : ∀ s ∈ segments, segmentSpace k s ≠ 0 →
    window.start.toNat ≤ s.startAddress.toNat ∧
      s.startAddress.toNat + (segmentSpace k s).toNat ≤ window.last.toNat + 1
  apart : segments.Pairwise fun s s' => segmentSpace k s ≠ 0 → segmentSpace k s' ≠ 0 →
    s.startAddress.toNat + (segmentSpace k s).toNat ≤ s'.startAddress.toNat ∨
      s'.startAddress.toNat + (segmentSpace k s').toNat ≤ s.startAddress.toNat

variable {k : Category} {window : Region} {segments placed : List (Segment α)}

theorem placed_of_placeSegments (hwords : k.isText = true → 4 ∣ window.start.toNat)
    (h : placeSegments k window segments = .ok placed) : Placed k window placed where
  start := by
    intro s hs
    obtain ⟨s₀, -, a, ha, -⟩ := exists_of_mem_right (placeSegments_starts h) hs
    exact ⟨a, ha⟩
  aligned hk _ hs := placeSegments_aligned hk (hwords hk) h hs
  inside _ hs := placeSegments_inside h hs
  apart := placeSegments_apart h

/-- Segments that have a start each keep it. -/
theorem settleStart_given {requests : List (Option Request)} {extents : List Extent}
    (hr : List.Forall₂ (fun (x : Segment α × Nat) r => segmentRequest k x.1 x.2 = .ok r)
      segments.zipIdx requests)
    (hd : divideWindow k window (requests.filterMap id) = .ok extents)
    (hstart : ∀ s ∈ segments, ∃ a, addressOf? s.start = some a) :
    segments.zipIdx.map (fun x => x.1.settleStart window extents x.2) = segments := by
  have hkept : ∀ x ∈ segments.zipIdx, x.1.settleStart window extents x.2 = x.1 := by
    rintro ⟨s, i⟩ hx
    obtain ⟨a, ha⟩ := hstart s (List.fst_mem_of_mem_zipIdx hx)
    cases hfound : extentOf? extents i with
    | none => simp only [Segment.settleStart, hfound, ha]
    | some e =>
      have hlower : e.lower = a := (extentOf?_spec hr hd hx hfound).2.2.2.1 a ha
      simp only [Segment.settleStart, hfound, hlower, placeAt_of_addressOf? ha]
  calc segments.zipIdx.map (fun x => x.1.settleStart window extents x.2)
      = segments.zipIdx.map Prod.fst := List.map_congr_left hkept
    _ = segments := List.zipIdx_map_fst 0 segments

theorem placeSegments_given (h : placeSegments k window segments = .ok placed)
    (hstart : ∀ s ∈ segments, ∃ a, addressOf? s.start = some a) : placed = segments := by
  obtain ⟨requests, extents, hr, hd, rfl⟩ := placeSegments_inv h
  exact settleStart_given hr hd hstart

/-- The request for the span of a segment where it is. -/
theorem span_startingAt {a size : UInt32} {owner : Option Int} (hne : size ≠ 0)
    (h : a.toNat + size.toNat ≤ 2 ^ 32) :
    (Request.startingAt a size owner).span = .ok (a, a + size - 1) := by
  unfold Request.span Request.startingAt
  rw [if_neg hne]
  exact if_neg (show ¬0xFFFFFFFF < a.toNat + size.toNat - 1 by omega)

namespace Placed

/-- The request of a placed segment: for its space where it is, or none. -/
def request (k : Category) (s : Segment α) (i : Nat) : Option Request :=
  if segmentSpace k s = 0 then none
  else some (.startingAt s.startAddress (segmentSpace k s) (some i))

theorem segmentRequest_eq (h : Placed k window segments) {s : Segment α} (hs : s ∈ segments) (i : Nat) :
    segmentRequest k s i = .ok (request k s i) := by
  obtain ⟨a, ha⟩ := h.start s hs
  have hstart : s.startAddress = a := by rw [Segment.startAddress, ha, Option.getD_some]
  unfold segmentRequest request
  by_cases hspace : segmentSpace k s = 0
  · simp [hspace]
  · have hword : ¬(k.isText = true ∧ a % 4 ≠ 0) := by
      rintro ⟨hk, hmod⟩
      have hdvd := h.aligned hk s hs hspace
      rw [hstart] at hdvd
      exact hmod (four_dvd_toNat.1 hdvd)
    simp only [hspace, if_false, ha, hstart, if_neg hword]

theorem request_eq_some {s : Segment α} {i : Nat} {r : Request} (h : request k s i = some r) :
    segmentSpace k s ≠ 0 ∧ r = .startingAt s.startAddress (segmentSpace k s) (some i) := by
  obtain ⟨hspace, h⟩ := Option.ite_none_left_eq_some.1 h
  exact ⟨hspace, (Option.some.inj h).symm⟩

/-- A placed segment asks for the addresses that it has. -/
theorem span_request (h : Placed k window segments) {s : Segment α} (hs : s ∈ segments)
    (hspace : segmentSpace k s ≠ 0) (owner : Option Int) :
    ∃ upper, (Request.startingAt s.startAddress (segmentSpace k s) owner).span =
        .ok (s.startAddress, upper) ∧
      upper.toNat + 1 = s.startAddress.toNat + (segmentSpace k s).toNat := by
  have hinside := (h.inside s hs hspace).2
  have hlast := window.last.toNat_lt
  have hpos : 0 < (segmentSpace k s).toNat :=
    Nat.pos_of_ne_zero fun hzero => hspace (UInt32.toNat_inj.1 hzero)
  have hbound : s.startAddress.toNat + (segmentSpace k s).toNat ≤ 2 ^ 32 := by omega
  exact ⟨_, span_startingAt hspace hbound, toNat_add_sub_one hpos hbound⟩

/-- The window has a division for segments that lie in it. -/
theorem exists_divideWindow (h : Placed k window segments) :
    ∃ extents, divideWindow k window
      (segments.zipIdx.filterMap fun x => request k x.1 x.2) = .ok extents := by
  unfold divideWindow
  split
  · exact ⟨[], rfl⟩
  rename_i hne
  have hfits : ∀ r ∈ segments.zipIdx.filterMap fun x => request k x.1 x.2,
      r.FitsIn window.start window.last := by
    intro r hr
    obtain ⟨⟨s, i⟩, hmem, hreq⟩ := List.mem_filterMap.1 hr
    obtain ⟨hspace, rfl⟩ := request_eq_some hreq
    have hs : s ∈ segments := List.fst_mem_of_mem_zipIdx hmem
    obtain ⟨upper, hspan, hupper⟩ := h.span_request hs hspace (some i)
    obtain ⟨hstart, hstop⟩ := h.inside s hs hspace
    refine ⟨_, upper, hspan, UInt32.le_iff_toNat_le.2 hstart, UInt32.le_iff_toNat_le.2 ?_⟩
    omega
  have hapart : (segments.zipIdx.filterMap fun x => request k x.1 x.2).Pairwise
      Request.SpansApart := by
    have hpairs := h.apart
    rw [← List.zipIdx_map_fst 0 segments, List.pairwise_map] at hpairs
    rw [List.pairwise_filterMap]
    refine hpairs.imp_of_mem ?_
    rintro ⟨s, i⟩ ⟨s', i'⟩ hmem hmem' hspaces r hr r' hr' lower upper lower' upper' hspan hspan'
    obtain ⟨hspace, rfl⟩ := request_eq_some hr
    obtain ⟨hspace', rfl⟩ := request_eq_some hr'
    obtain ⟨u, hu, hnat⟩ := h.span_request (List.fst_mem_of_mem_zipIdx hmem) hspace (some i)
    obtain ⟨u', hu', hnat'⟩ := h.span_request (List.fst_mem_of_mem_zipIdx hmem') hspace' (some i')
    obtain ⟨rfl, rfl⟩ := Prod.mk.inj (Except.ok.inj (hu.symm.trans hspan))
    obtain ⟨rfl, rfl⟩ := Prod.mk.inj (Except.ok.inj (hu'.symm.trans hspan'))
    have hcases := hspaces hspace hspace'
    rw [UInt32.lt_iff_toNat_lt, UInt32.lt_iff_toNat_lt]
    omega
  -- a request that fits into the window shows that the window is not empty
  have hle : window.start ≤ window.last := by
    obtain ⟨r, hr⟩ := List.exists_mem_of_ne_nil _ hne
    obtain ⟨lower, upper, hspan, hlow, hhigh⟩ := hfits r hr
    exact UInt32.le_trans hlow (UInt32.le_trans (Request.le_of_span hspan) hhigh)
  obtain ⟨es, hes⟩ := exists_layout hle hfits hapart
  exact ⟨es, by rw [hes]⟩

/-- Segments that lie in their window are placed where they are. -/
theorem placeSegments_eq (h : Placed k window segments) :
    placeSegments k window segments = .ok segments := by
  have hrequests : List.Forall₂ (fun (x : Segment α × Nat) r => segmentRequest k x.1 x.2 = .ok r)
      segments.zipIdx (segments.zipIdx.map fun x => request k x.1 x.2) := by
    rw [List.forall₂_map_right_iff, List.forall₂_same]
    exact fun x hx => h.segmentRequest_eq (List.fst_mem_of_mem_zipIdx hx) x.2
  obtain ⟨extents, hd⟩ := h.exists_divideWindow
  have hd' : divideWindow k window
      ((segments.zipIdx.map fun x => request k x.1 x.2).filterMap id) = .ok extents := by
    rw [List.filterMap_map]
    exact hd
  unfold placeSegments
  exact bind_eq_ok.2 ⟨_, mapM_eq_ok.2 hrequests,
    bind_eq_ok.2 ⟨extents, hd', pure_eq_ok.2 (settleStart_given hrequests hd' h.start)⟩⟩

end Placed

/-! ## Segments with addresses -/

/-- Entries that follow one another from `a` on have their addresses. -/
theorem assignFrom_of_places {a : Nat} {es es' : List (Entry α)}
    (hplaces : es'.map (·.place) = (assignFrom a es).map (·.place))
    (hsizes : (es'.map fun e => byteSize e.item) = es.map fun e => byteSize e.item) :
    assignFrom a es' = es' := by
  induction es generalizing a es' with
  | nil =>
    obtain rfl : es' = [] := by simpa using hsizes
    rfl
  | cons e es ih =>
    obtain ⟨e', rest, rfl⟩ : ∃ e' rest, es' = e' :: rest := by
      cases es' with
      | nil => simp at hsizes
      | cons e' rest => exact ⟨e', rest, rfl⟩
    simp only [assignFrom, List.map_cons, List.cons.injEq] at hplaces hsizes
    obtain ⟨hplace, hplaces⟩ := hplaces
    obtain ⟨hsize, hsizes⟩ := hsizes
    have haddress : addressOf? e'.place = some (UInt32.ofNat a) := by rw [hplace, addressOf?_placeAt]
    rw [assignFrom, placeAt_of_addressOf? haddress, hsize, ih hplaces hsizes]

theorem sizes_assignFrom (a : Nat) (es : List (Entry α)) :
    ((assignFrom a es).map fun e => byteSize e.item) = es.map fun e => byteSize e.item := by
  induction es generalizing a with
  | nil => rfl
  | cons e es ih => simp only [assignFrom, List.map_cons, ih]

theorem totalSize_congr {es es' : List (Entry α)}
    (h : (es'.map fun e => byteSize e.item) = es.map fun e => byteSize e.item) :
    totalSize es' = totalSize es := by
  have hsum : ∀ es : List (Entry α),
      totalSize es = ((es.map fun e => byteSize e.item).map UInt32.toNat).sum := by
    intro es
    induction es with
    | nil => rfl
    | cons e es ih => simp [ih]
  rw [hsum, hsum, h]

/-- Entries that end inside the window meet no failure. -/
theorem not_mem_actionsFrom {start : UInt32} {a : Nat} {es : List (Entry α)}
    (h : es ≠ [] → a + totalSize es ≤ window.stop.toNat) (err : AssemblyError) :
    .fail err ∉ actionsFrom k window start a es := by
  induction es generalizing a with
  | nil => simp [actionsFrom]
  | cons e es ih =>
    have hstop := h (by simp)
    rw [totalSize_cons] at hstop
    unfold actionsFrom
    rw [if_neg (by omega), List.mem_append, not_or]
    exact ⟨by simp, ih fun _ => by omega⟩

namespace Segment.SamePlaces

variable {s s' : Segment α}

theorem sizes_eq (h : s.assign.SamePlaces s') :
    (s'.entries.map fun e => byteSize e.item) = s.entries.map fun e => byteSize e.item :=
  h.sizes.trans (sizes_assignFrom ..)

theorem startAddress_eq (h : s.assign.SamePlaces s') : s'.startAddress = s.startAddress := by
  rw [Segment.startAddress, h.start]
  rfl

theorem segmentSpace_eq (h : s.assign.SamePlaces s') : segmentSpace k s' = segmentSpace k s := by
  have hsize : ∀ s : Segment α,
      s.size = (s.entries.map fun e => byteSize e.item).foldl (· + ·) 0 := by
    intro s
    rw [Segment.size, List.foldl_map]
  rw [segmentSpace, segmentSpace, hsize, hsize, h.sizes_eq]

/-- A segment with the addresses of a settled one has them already. -/
theorem assign_eq (h : s.assign.SamePlaces s') : s'.assign = s' := by
  have hentries : assignFrom s'.startAddress.toNat s'.entries = s'.entries := by
    rw [h.startAddress_eq]
    exact assignFrom_of_places h.places h.sizes_eq
  rw [Segment.assign, hentries]

theorem definitions_eq (h : s.SamePlaces s') :
    s'.entries.flatMap Entry.definitions = s.entries.flatMap Entry.definitions := by
  have hplaces : ∀ es : List (Entry α), es.flatMap Entry.definitions =
      (es.map (·.place)).flatMap fun place =>
        (labelsOf place).map fun n => ⟨n, (addressOf? place).getD 0⟩ := by
    intro es
    rw [List.flatMap_map]
    rfl
  rw [hplaces, hplaces, h.places]

end Segment.SamePlaces

variable {segments' : List (Segment α)}

/-- Segments with the addresses of placed ones are placed. -/
theorem Placed.of_samePlaces (h : Placed k window placed)
    (hsame : List.Forall₂ (fun s s' => s.assign.SamePlaces s') placed segments') :
    Placed k window segments' where
  start := by
    intro s' hs'
    obtain ⟨s, hs, hss'⟩ := exists_of_mem_right hsame hs'
    rw [hss'.start]
    exact h.start s hs
  aligned := by
    intro hk s' hs' hspace
    obtain ⟨s, hs, hss'⟩ := exists_of_mem_right hsame hs'
    rw [hss'.segmentSpace_eq] at hspace
    rw [hss'.startAddress_eq]
    exact h.aligned hk s hs hspace
  inside := by
    intro s' hs' hspace
    obtain ⟨s, hs, hss'⟩ := exists_of_mem_right hsame hs'
    rw [hss'.segmentSpace_eq] at hspace ⊢
    rw [hss'.startAddress_eq]
    exact h.inside s hs hspace
  apart := by
    refine pairwise_of_forall₂ (fun s₁ s₂ s₁' s₂' h₁ h₂ hapart => ?_) hsame h.apart
    simpa only [h₁.segmentSpace_eq, h₂.segmentSpace_eq, h₁.startAddress_eq, h₂.startAddress_eq]
      using hapart

/-! ## Programs -/

namespace Instruction

/-- The values of labels do not concern an instruction that can be encoded. -/
theorem link_of_isResolved {inst : Instruction} (h : inst.isResolved = true) (t : SymbolTable)
    (source : UInt32) : inst.link t source = .ok inst := by
  cases inst with
  | register | immediate | jump => rfl
  | immediateLabel | jumpLabel | loadLiteral => cases h

theorem isMachine_of_isResolved {inst : Instruction} (h : inst.isResolved = true) :
    inst.IsMachine := by
  cases inst with
  | register | jump => trivial
  | immediate op rs rt value => simpa [isResolved, IsMachine] using h
  | immediateLabel | jumpLabel | loadLiteral => cases h

end Instruction

/-- A settled program whose entries have the places that they had is settled as it is. -/
theorem Settles.of_samePlaces {w : Windows} {p q : Program}
    {placed : (k : Category) → List (Segment k.Item)} {t : SymbolTable} (h : Settles w p placed t)
    (hwords : ∀ m, 4 ∣ (w.region (.text m)).start.toNat)
    (hsame : ∀ k, List.Forall₂ (fun s s' => s.assign.SamePlaces s') (placed k) (q.segments k)) :
    Settles w q q.segments t where
  place k := by
    have hstart : k.isText = true → 4 ∣ (w.region k).start.toNat := by
      cases k with
      | text m => exact fun _ => hwords m
      | data m => exact fun hk => by cases hk
    exact ((placed_of_placeSegments hstart (h.place k)).of_samePlaces (hsame k)).placeSegments_eq
  fits k err := by
    intro hfail
    obtain ⟨s', hs', hfail⟩ := List.mem_flatMap.1 hfail
    obtain ⟨s, hs, hss'⟩ := exists_of_mem_right (hsame k) hs'
    refine not_mem_actionsFrom (fun hne => ?_) err hfail
    rw [hss'.startAddress_eq, totalSize_congr hss'.sizes_eq]
    refine h.entries_fit hs fun hnil => hne ?_
    simpa [hnil] using hss'.sizes_eq
  records := by
    have hdefinitions : ∀ k, definitionsIn ((q.segments k).map Segment.assign) =
        definitionsIn ((placed k).map Segment.assign) := by
      intro k
      unfold definitionsIn
      rw [List.flatMap_map, List.flatMap_map, List.flatMap_def, List.flatMap_def]
      refine congrArg List.flatten (map_eq_map_of_forall₂ (fun s s' hss' => ?_) (hsame k)).symm
      rw [hss'.assign_eq, hss'.definitions_eq]
    simp only [hdefinitions]
    exact h.records

namespace Program

variable {w : Windows} {p q : Program} {t : SymbolTable}

/-- The instructions of a resolved program can be encoded. -/
theorem isResolved_of_resolve (h : p.resolve w = .ok (q, t)) {m : Mode} {s : Segment Instruction}
    (hs : s ∈ q.text m) {e : Entry Instruction} (he : e ∈ s.entries) : e.item.isResolved = true := by
  obtain ⟨_, -, _, -, i, hi, a, hlinked⟩ := resolve_text_inv h hs he
  exact hlinked.isResolved (Instruction.isMachine_of_mem_expand hi)

/-- A program that can be encoded is linked as it is. -/
theorem link_of_isResolved (h : ∀ m, ∀ s ∈ q.text m, ∀ e ∈ s.entries, e.item.isResolved = true)
    (t : SymbolTable) : q.link t = .ok q := by
  have hsegment : ∀ m, ∀ s ∈ q.text m, s.link t = .ok s := by
    intro m s hs
    refine map_eq_ok.2 ⟨s.entries, mapM_eq_ok.2 (List.forall₂_same.2 fun e he => ?_), rfl⟩
    rw [Entry.link, Instruction.link_of_isResolved (h m s hs e he)]
  have htext : ∀ m, (q.text m).mapM (Segment.link t) = .ok (q.text m) := fun m =>
    mapM_eq_ok.2 (List.forall₂_same.2 (hsegment m))
  exact bind_eq_ok.2 ⟨_, htext .user, bind_eq_ok.2 ⟨_, htext .kernel, rfl⟩⟩

/-- **Resolving twice is resolving once.** If the windows for text start at words, a resolved program
resolves to itself, with the same symbol table. -/
theorem resolve_resolve (hwords : ∀ m, (w.region (.text m)).start % 4 = 0)
    (h : p.resolve w = .ok (q, t)) : q.resolve w = .ok (q, t) := by
  obtain ⟨hcheck, placed, hsettles, hsame⟩ := resolve_settles h
  have hresolved : ∀ m, ∀ s ∈ q.text m, ∀ e ∈ s.entries, e.item.isResolved = true :=
    fun m s hs e he => isResolved_of_resolve h hs he
  have hexpand : q.expand = q := expand_of_isMachine fun m s hs e he =>
    Instruction.isMachine_of_isResolved (hresolved m s hs e he)
  have hwords' : ∀ m, 4 ∣ (w.region (.text m)).start.toNat := fun m => four_dvd_toNat.2 (hwords m)
  have hsame' : ∀ k, List.Forall₂ (fun s s' => s.assign.SamePlaces s') (placed k) (q.segments k) :=
    fun k => List.forall₂_map_left_iff.1 (hsame k)
  have hassign : ∀ k, q.segments k = (q.segments k).map Segment.assign := by
    intro k
    conv_lhs => rw [← List.map_id (q.segments k)]
    refine List.map_congr_left fun s' hs' => ?_
    obtain ⟨s, -, hss'⟩ := exists_of_mem_right (hsame' k) hs'
    exact hss'.assign_eq.symm
  refine resolve_eq_ok.2 ⟨hcheck, q, ?_, link_of_isResolved hresolved t⟩
  rw [hexpand]
  exact settle_eq_ok.2 ⟨q.segments, hsettles.of_samePlaces hwords' hsame', hassign⟩

/-- Text segments with and without a start, in an order that is not that of their addresses; the last
has no entries and starts between two words. The data has a size that is not a multiple of eight. -/
def scatteredProgram : Program where
  userText :=
    [{ start := none, entries :=
        [{ place := none, item := .loadLiteral ⟨0x42⟩ ⟨8⟩ 0x12345678, line := 1 },
         { place := none, item := .immediateLabel ⟨0x04⟩ ⟨8⟩ .zero "end", line := 2 }] },
     { start := some { address := some 0x0A000000 }, entries :=
        [{ place := some { labels := ["first"] }, item := .jumpLabel ⟨0x02⟩ "end", line := 3 }] },
     { start := some {}, entries :=
        [{ place := some { labels := ["end"] }
           item := .immediateLabel ⟨0x41⟩ .zero ⟨4⟩ "list"
           line := 4 }] },
     { start := some { address := some 0x0A000002 } }]
  userData :=
    [{ start := none, entries :=
        [{ place := some { labels := ["list"] }, item := .bytes [1, 2, 3] 0, line := 5 }] },
     { start := some { address := some 0x10000000 }, entries :=
        [{ place := none, item := .words [4] 0, line := 6 }] }]

/-- First fit goes around the segments with a start, and finds all segments where they are after
that. -/
theorem resolve_resolve_scattered :
    (∀ m, (Windows.region {} (.text m)).start % 4 = 0) ∧
      ∃ q t, scatteredProgram.resolve {} = .ok (q, t) ∧
        q.userText.map (·.startAddress) = [0x0A000004, 0x0A000000, 0x0A000010, 0x0A000002] ∧
        q.userData.map (·.startAddress) = [0x10000008, 0x10000000] ∧
        q.resolve {} = .ok (q, t) := by
  have hwords : ∀ m, (Windows.region {} (.text m)).start % 4 = 0 := by
    intro m
    cases m <;> decide
  have hstarts : ((scatteredProgram.resolve {}).toOption.map fun r =>
      (r.1.userText.map (·.startAddress), r.1.userData.map (·.startAddress))) =
      some ([0x0A000004, 0x0A000000, 0x0A000010, 0x0A000002], [0x10000008, 0x10000000]) := by
    decide +kernel
  obtain ⟨⟨q, t⟩, hq, hstarts⟩ := Option.map_eq_some_iff.1 hstarts
  obtain ⟨htext, hdata⟩ := Prod.mk.inj hstarts
  have hresolve := eq_ok_of_toOption hq
  exact ⟨hwords, q, t, hresolve, htext, hdata, resolve_resolve hwords hresolve⟩

end Program

end MipsAssembler
