import MipsAssembler.Program.Linking
import MipsAssembler.Proofs.FirstFit

/-!
# Where segments and entries come to lie

What is known once the segments of a category are settled.

* Settling changes addresses only (`settle_located`): entries, items, lines and labels stay.
* The entries of a segment end inside the window (`labelActions_fits`), so that the size of a segment, a
  number of 32 bits, is the sum of the sizes of its entries (`toNat_segmentSize`).
* Segments that take space take it at their start, inside the window and apart from one another
  (`placeSegments_inside`, `placeSegments_apart`). The requests of different segments have different
  owners, which is how a segment finds its own extent in the layout (`extentOf?_spec`).
-/

namespace MipsAssembler

open Outcome Tiling Placement

variable {α : Type}

/-! ## Successful runs -/

theorem settle_eq_ok [Sized α] {k : Category} {window : Region} {segments settled : List (Segment α)}
    {t t' : SymbolTable} :
    settle k window segments t = .ok (settled, t') ↔
      ∃ placed, placeSegments k window segments = .ok placed ∧
        (labelActions k window placed).foldlM LabelAction.apply t = .ok t' ∧
        settled = placed.map Segment.assign := by
  rw [settle, bind_eq_ok]
  refine exists_congr fun placed => and_congr_right fun _ => ?_
  rw [bind_eq_ok]
  constructor
  · rintro ⟨table, ht, h⟩
    obtain ⟨rfl, rfl⟩ := Prod.mk.inj (pure_eq_ok.1 h)
    exact ⟨ht, rfl⟩
  · rintro ⟨ht, rfl⟩
    exact ⟨t', ht, rfl⟩

/-- A settled program was settled category by category. -/
theorem Program.settle_inv {w : Windows} {p q : Program} {t : SymbolTable}
    (h : p.settle w = .ok (q, t)) :
    (∀ m, ∃ t₀ t₁, MipsAssembler.settle (.text m) (w.region (.text m)) (p.text m) t₀ =
      .ok (q.text m, t₁)) ∧
    ∀ m, ∃ t₀ t₁, MipsAssembler.settle (.data m) (w.region (.data m)) (p.data m) t₀ =
      .ok (q.data m, t₁) := by
  rw [Program.settle] at h
  obtain ⟨⟨userText, t₁⟩, h₁, h⟩ := bind_eq_ok.1 h
  obtain ⟨⟨kernelText, t₂⟩, h₂, h⟩ := bind_eq_ok.1 h
  obtain ⟨⟨userData, t₃⟩, h₃, h⟩ := bind_eq_ok.1 h
  obtain ⟨⟨kernelData, t₄⟩, h₄, h⟩ := bind_eq_ok.1 h
  obtain ⟨rfl, rfl⟩ := Prod.mk.inj (pure_eq_ok.1 h)
  constructor
  · rintro (_ | _)
    · exact ⟨_, _, h₁⟩
    · exact ⟨_, _, h₂⟩
  · rintro (_ | _)
    · exact ⟨_, _, h₃⟩
    · exact ⟨_, _, h₄⟩

theorem Program.resolve_eq_ok {w : Windows} {p q : Program} {t : SymbolTable} :
    p.resolve w = .ok (q, t) ↔
      w.check = .ok () ∧ ∃ settled, p.expand.settle w = .ok (settled, t) ∧
        settled.link t = .ok q := by
  have hw : ∀ u, checkWindows w = .ok u ↔ w.check = .ok () := fun u => by
    rw [checkWindows]
    split <;> simp_all
  rw [Program.resolve, bind_eq_ok]
  constructor
  · rintro ⟨u, hu, h⟩
    obtain ⟨⟨settled, t'⟩, hs, h⟩ := bind_eq_ok.1 h
    obtain ⟨linked, hl, h⟩ := bind_eq_ok.1 h
    obtain ⟨rfl, rfl⟩ := Prod.mk.inj (pure_eq_ok.1 h)
    exact ⟨(hw u).1 hu, settled, hs, hl⟩
  · rintro ⟨hc, settled, hs, hl⟩
    refine ⟨(), (hw ()).2 hc, bind_eq_ok.2 ⟨_, hs, bind_eq_ok.2 ⟨_, hl, rfl⟩⟩⟩

/-! ## What settling keeps -/

@[simp] theorem addressOf?_placeAt (a : UInt32) (place : Option Location) :
    addressOf? (placeAt a place) = some a := rfl

/-- The second entry is the first with an address of its own. -/
def Entry.Located (e e' : Entry α) : Prop := ∃ a, e' = { e with place := placeAt a e.place }

theorem assignFrom_located [Sized α] (a : Nat) (es : List (Entry α)) :
    List.Forall₂ Entry.Located es (assignFrom a es) := by
  induction es generalizing a with
  | nil => exact .nil
  | cons e es ih => exact .cons ⟨_, rfl⟩ (ih _)

theorem settleStart_entries (window : Region) (extents : List Extent) (s : Segment α) (i : Nat) :
    (s.settleStart window extents i).entries = s.entries := by
  rw [Segment.settleStart]
  split <;> rfl

theorem placeSegments_inv [Sized α] {k : Category} {window : Region}
    {segments placed : List (Segment α)} (h : placeSegments k window segments = .ok placed) :
    ∃ requests extents,
      List.Forall₂ (fun (x : Segment α × Nat) r => segmentRequest k x.1 x.2 = .ok r)
        segments.zipIdx requests ∧
      divideWindow k window (requests.filterMap id) = .ok extents ∧
      placed = segments.zipIdx.map fun (s, i) => s.settleStart window extents i := by
  rw [placeSegments] at h
  obtain ⟨requests, hr, h⟩ := bind_eq_ok.1 h
  obtain ⟨extents, he, h⟩ := bind_eq_ok.1 h
  exact ⟨requests, extents, mapM_eq_ok.1 hr, he, (pure_eq_ok.1 h).symm⟩

theorem placeSegments_entries [Sized α] {k : Category} {window : Region}
    {segments placed : List (Segment α)} (h : placeSegments k window segments = .ok placed) :
    List.Forall₂ (fun s s' => s'.entries = s.entries) segments placed := by
  obtain ⟨-, extents, -, -, rfl⟩ := placeSegments_inv h
  rw [List.forall₂_map_right_iff]
  conv => arg 2; rw [← List.zipIdx_map_fst 0 segments]
  rw [List.forall₂_map_left_iff, List.forall₂_same]
  exact fun x _ => settleStart_entries ..

/-- Settling gives every entry an address and changes nothing else in it. -/
theorem settle_located [Sized α] {k : Category} {window : Region}
    {segments settled : List (Segment α)} {t t' : SymbolTable}
    (h : settle k window segments t = .ok (settled, t')) :
    List.Forall₂ (fun s s' => List.Forall₂ Entry.Located s.entries s'.entries) segments settled := by
  obtain ⟨placed, hp, -, rfl⟩ := settle_eq_ok.1 h
  rw [List.forall₂_map_right_iff]
  refine (placeSegments_entries hp).imp fun s s' hs => ?_
  rw [Segment.assign, ← hs]
  exact assignFrom_located ..

theorem settle_addressed [Sized α] {k : Category} {window : Region}
    {segments settled : List (Segment α)} {t t' : SymbolTable}
    (h : settle k window segments t = .ok (settled, t')) {s : Segment α} (hs : s ∈ settled)
    {e : Entry α} (he : e ∈ s.entries) : ∃ a, addressOf? e.place = some a := by
  obtain ⟨s₀, -, hs₀⟩ := exists_of_mem_right (settle_located h) hs
  obtain ⟨e₀, -, a, rfl⟩ := exists_of_mem_right hs₀ he
  exact ⟨a, rfl⟩

/-- In a settled program every entry has its address. -/
theorem Program.settle_addressed {w : Windows} {p q : Program} {t : SymbolTable}
    (h : p.settle w = .ok (q, t)) :
    (∀ m, ∀ s ∈ q.text m, ∀ e ∈ s.entries, ∃ a, addressOf? e.place = some a) ∧
      ∀ m, ∀ s ∈ q.data m, ∀ e ∈ s.entries, ∃ a, addressOf? e.place = some a := by
  obtain ⟨htext, hdata⟩ := Program.settle_inv h
  refine ⟨fun m s hs e he => ?_, fun m s hs e he => ?_⟩
  · obtain ⟨t₀, t₁, hm⟩ := htext m
    exact MipsAssembler.settle_addressed hm hs he
  · obtain ⟨t₀, t₁, hm⟩ := hdata m
    exact MipsAssembler.settle_addressed hm hs he

/-! ## Sizes -/

/-- The bytes that entries take, all in all. -/
def totalSize [Sized α] : List (Entry α) → Nat
  | [] => 0
  | e :: es => (byteSize e.item).toNat + totalSize es

@[simp] theorem totalSize_nil [Sized α] : totalSize ([] : List (Entry α)) = 0 := rfl

@[simp] theorem totalSize_cons [Sized α] (e : Entry α) (es : List (Entry α)) :
    totalSize (e :: es) = (byteSize e.item).toNat + totalSize es := rfl

theorem totalSize_append [Sized α] (before after : List (Entry α)) :
    totalSize (before ++ after) = totalSize before + totalSize after := by
  induction before with
  | nil => simp
  | cons e before ih => simp [ih, Nat.add_assoc]

theorem toNat_foldl_size [Sized α] (n : UInt32) (es : List (Entry α)) :
    (es.foldl (fun n e => n + byteSize e.item) n).toNat = (n.toNat + totalSize es) % 2 ^ 32 := by
  induction es generalizing n with
  | nil => simp [Nat.mod_eq_of_lt n.toNat_lt]
  | cons e es ih =>
    rw [List.foldl_cons, ih, UInt32.toNat_add, totalSize_cons, Nat.mod_add_mod, Nat.add_assoc]

/-- The size of a segment is the sum of the sizes of its entries, if that fits into 32 bits. -/
theorem toNat_segmentSize [Sized α] {s : Segment α} (h : totalSize s.entries < 2 ^ 32) :
    s.size.toNat = totalSize s.entries := by
  rw [Segment.size, toNat_foldl_size, UInt32.toNat_zero, Nat.zero_add, Nat.mod_eq_of_lt h]

@[simp] theorem LabelAction.apply_fail (t : SymbolTable) (e : AssemblyError) :
    (fail e).apply t = .error e := rfl

/-- A run over steps on the symbol table that succeeds has met no failure. -/
theorem not_mem_of_foldlM_apply {actions : List LabelAction} {t t' : SymbolTable}
    (h : actions.foldlM LabelAction.apply t = .ok t') (e : AssemblyError) :
    .fail e ∉ actions := by
  induction actions generalizing t with
  | nil => simp
  | cons a actions ih =>
    rw [List.foldlM_cons] at h
    obtain ⟨t₁, ha, h⟩ := bind_eq_ok.1 h
    rw [List.mem_cons, not_or]
    refine ⟨?_, ih h⟩
    rintro rfl
    simp at ha

/-- Entries without a failure end inside the window. -/
theorem actionsFrom_fits [Sized α] (k : Category) {window : Region} (start : UInt32) {a : Nat}
    {es : List (Entry α)} (h : ∀ e, .fail e ∉ actionsFrom k window start a es) (hne : es ≠ []) :
    a + totalSize es ≤ window.stop.toNat := by
  induction es generalizing a with
  | nil => exact absurd rfl hne
  | cons e es ih =>
    rw [actionsFrom] at h
    split at h
    · simp at h
    rename_i hfit
    by_cases hes : es = []
    · subst hes
      simpa using hfit
    · have := ih (fun err hmem => h err (List.mem_append_right _ hmem)) hes
      rw [totalSize_cons]
      omega

/-- The entries of a placed segment end inside the window. -/
theorem labelActions_fits [Sized α] {k : Category} {window : Region} {placed : List (Segment α)}
    {t t' : SymbolTable} (h : (labelActions k window placed).foldlM LabelAction.apply t = .ok t')
    {s : Segment α} (hs : s ∈ placed) (hne : s.entries ≠ []) :
    s.startAddress.toNat + totalSize s.entries ≤ window.stop.toNat := by
  refine actionsFrom_fits k s.startAddress (fun e he => ?_) hne
  exact not_mem_of_foldlM_apply h e (List.mem_flatMap.2 ⟨s, hs, he⟩)

/-! ## Segments -/

/-- A segment that takes space asks for it, at its address if it has one, with its number as
owner. -/
theorem segmentRequest_inv [Sized α] {k : Category} {s : Segment α} {i : Nat} {r : Request}
    (h : segmentRequest k s i = .ok (some r)) :
    r = { lower := addressOf? s.start, size := segmentSpace k s, owner := some (i : Int) } ∧
      segmentSpace k s ≠ 0 ∧ ∀ a, addressOf? s.start = some a → k.isText = true → a % 4 = 0 := by
  simp only [segmentRequest] at h
  split at h
  · simp at h
  rename_i hspace
  split at h
  · rename_i hs
    obtain rfl : Request.anywhere _ _ = r := by simpa using h
    exact ⟨by rw [hs]; rfl, hspace, by simp [hs]⟩
  · rename_i start hs
    split at h
    · simp at h
    · rename_i hword
      obtain rfl : Request.startingAt _ _ _ = r := by simpa using h
      refine ⟨by rw [hs]; rfl, hspace, fun a ha htext => ?_⟩
      obtain rfl := Option.some.inj (hs.symm.trans ha)
      exact not_not.1 fun hmod => hword ⟨htext, hmod⟩

theorem segmentRequest_some [Sized α] {k : Category} {s : Segment α} {i : Nat} {r : Request}
    (h : segmentRequest k s i = .ok (some r)) :
    r.size = segmentSpace k s ∧ r.owner = some (i : Int) ∧
      ∀ a, addressOf? s.start = some a → r.lower = some a := by
  obtain ⟨rfl, -, -⟩ := segmentRequest_inv h
  exact ⟨rfl, rfl, fun a ha => ha⟩

theorem segmentRequest_none [Sized α] {k : Category} {s : Segment α} {i : Nat}
    (h : segmentRequest k s i = .ok none) : segmentSpace k s = 0 := by
  simp only [segmentRequest] at h
  split at h
  · assumption
  split at h
  · simp at h
  · split at h <;> simp at h

/-- A window that was divided, if there was any request for it. -/
theorem divideWindow_division {k : Category} {window : Region} {requests : List Request}
    {extents : List Extent} (h : divideWindow k window requests = .ok extents)
    (hne : requests ≠ []) :
    ∃ blocks, List.Forall₂ Request.HonouredBy requests blocks ∧
      Division window.start window.last blocks extents := by
  rw [divideWindow, if_neg hne] at h
  split at h
  · rename_i es hl
    obtain rfl := Except.ok.inj h
    exact (layout_division hl).2
  · simp at h

/-- The extent that is found for a segment was placed for it: it lies in the window, is as large as
the segment, and begins at the address of the segment if that has one. -/
theorem extentOf?_spec [Sized α] {k : Category} {window : Region} {segments : List (Segment α)}
    {requests : List (Option Request)} {extents : List Extent}
    (hr : List.Forall₂ (fun (x : Segment α × Nat) r => segmentRequest k x.1 x.2 = .ok r)
      segments.zipIdx requests)
    (hd : divideWindow k window (requests.filterMap id) = .ok extents) {s : Segment α} {i : Nat}
    (hs : (s, i) ∈ segments.zipIdx) {e : Extent} (he : extentOf? extents i = some e) :
    e ∈ extents ∧ e.owner = some (i : Int) ∧
      e.upper.toNat + 1 = e.lower.toNat + (segmentSpace k s).toNat ∧
      (∀ a, addressOf? s.start = some a → e.lower = a) ∧
      Covers window.start.toNat extents (window.last.toNat + 1) := by
  have hemem : e ∈ extents := List.mem_of_find?_eq_some he
  have hne : requests.filterMap id ≠ [] := by
    intro hnil
    rw [hnil, divideWindow, if_pos rfl] at hd
    obtain rfl := Except.ok.inj hd
    simp at hemem
  obtain ⟨blocks, hblocks, hdiv⟩ := divideWindow_division hd hne
  have hfound := List.find?_some he
  simp only [decide_eq_true_eq] at hfound
  obtain ⟨r', hr', hhon'⟩ := exists_of_mem_right hblocks
    (hdiv.placed.mem_iff.1 (List.mem_filter.2 ⟨hemem, by simp [hfound.1]⟩))
  obtain ⟨o', ho', rfl⟩ := List.mem_filterMap.1 hr'
  obtain ⟨⟨s', i'⟩, hs', hreq'⟩ := exists_of_mem_right hr ho'
  obtain ⟨hsize, howner', hlower⟩ := segmentRequest_some hreq'
  obtain rfl : i' = i := by
    have := hhon'.owner.symm.trans hfound.2
    rw [howner'] at this
    exact Int.ofNat_inj.1 (Option.some.inj this)
  obtain rfl : s' = s := by
    have h₁ := List.mk_mem_zipIdx_iff_getElem?.1 hs'
    rw [List.mk_mem_zipIdx_iff_getElem?.1 hs] at h₁
    exact (Option.some.inj h₁).symm
  refine ⟨hemem, hfound.2, ?_, fun a ha => hhon'.lower a (hlower a ha), hdiv.covers⟩
  rw [hhon'.size, hsize]

/-- A segment that takes space has an extent of its own. -/
theorem extentOf?_of_space [Sized α] {k : Category} {window : Region} {segments : List (Segment α)}
    {requests : List (Option Request)} {extents : List Extent}
    (hr : List.Forall₂ (fun (x : Segment α × Nat) r => segmentRequest k x.1 x.2 = .ok r)
      segments.zipIdx requests)
    (hd : divideWindow k window (requests.filterMap id) = .ok extents) {s : Segment α} {i : Nat}
    (hs : (s, i) ∈ segments.zipIdx) (hspace : segmentSpace k s ≠ 0) :
    ∃ e, extentOf? extents i = some e := by
  obtain ⟨o, ho, hreq⟩ := exists_of_mem_left hr hs
  cases o with
  | none => exact absurd (segmentRequest_none hreq) hspace
  | some r =>
    have hmem : r ∈ requests.filterMap id := List.mem_filterMap.2 ⟨some r, ho, rfl⟩
    obtain ⟨blocks, hblocks, hdiv⟩ := divideWindow_division hd (List.ne_nil_of_mem hmem)
    -- the segment's own request has a block, so that the search for one succeeds
    obtain ⟨block, hblock, hhon⟩ := exists_of_mem_left hblocks hmem
    have hin := List.mem_filter.1 (hdiv.placed.mem_iff.2 hblock)
    have howner := (segmentRequest_some hreq).2.1
    rw [← Option.isSome_iff_exists, extentOf?, List.find?_isSome]
    exact ⟨block, hin.1, by simp [hhon.allocated, hhon.owner, howner]⟩

theorem segmentSpace_settleStart [Sized α] (k : Category) (window : Region) (extents : List Extent)
    (s : Segment α) (i : Nat) :
    segmentSpace k (s.settleStart window extents i) = segmentSpace k s := by
  rw [segmentSpace, segmentSpace, Segment.size, Segment.size, settleStart_entries]

theorem startAddress_settleStart {window : Region} {extents : List Extent} {s : Segment α} {i : Nat}
    {e : Extent} (h : extentOf? extents i = some e) :
    (s.settleStart window extents i).startAddress = e.lower := by
  simp [Segment.settleStart, h, Segment.startAddress]

/-- Every segment gets a start: the address that it has, or else one that is not below the window. -/
theorem placeSegments_starts [Sized α] {k : Category} {window : Region}
    {segments placed : List (Segment α)} (h : placeSegments k window segments = .ok placed) :
    List.Forall₂ (fun s s' => ∃ a, addressOf? s'.start = some a ∧
      (addressOf? s.start = some a ∨ addressOf? s.start = none ∧ window.start ≤ a))
      segments placed := by
  obtain ⟨requests, extents, hr, hd, rfl⟩ := placeSegments_inv h
  rw [List.forall₂_map_right_iff]
  conv => arg 2; rw [← List.zipIdx_map_fst 0 segments]
  rw [List.forall₂_map_left_iff, List.forall₂_same]
  rintro ⟨s, i⟩ hs
  simp only [Segment.settleStart]
  split
  · rename_i e hfound
    obtain ⟨he, -, -, hlower, hcovers⟩ := extentOf?_spec hr hd hs hfound
    refine ⟨e.lower, rfl, ?_⟩
    cases hstart : addressOf? s.start with
    | some a => exact .inl (congrArg some (hlower a hstart).symm)
    | none => exact .inr ⟨rfl, UInt32.le_iff_toNat_le.2 (hcovers.bounds_of_mem he).1⟩
  · rename_i a _ hstart
    exact ⟨a, hstart, .inl hstart⟩
  · rename_i _ hstart
    exact ⟨window.start, rfl, .inr ⟨hstart, UInt32.le_refl _⟩⟩

/-- A segment that takes space takes it inside the window. -/
theorem placeSegments_inside [Sized α] {k : Category} {window : Region}
    {segments placed : List (Segment α)} (h : placeSegments k window segments = .ok placed)
    {s : Segment α} (hs : s ∈ placed) (hspace : segmentSpace k s ≠ 0) :
    window.start.toNat ≤ s.startAddress.toNat ∧
      s.startAddress.toNat + (segmentSpace k s).toNat ≤ window.last.toNat + 1 := by
  obtain ⟨requests, extents, hr, hd, rfl⟩ := placeSegments_inv h
  obtain ⟨⟨s, i⟩, hmem, rfl⟩ := List.mem_map.1 hs
  rw [segmentSpace_settleStart] at hspace ⊢
  obtain ⟨e, hfound⟩ := extentOf?_of_space hr hd hmem hspace
  obtain ⟨he, -, hsize, -, hcovers⟩ := extentOf?_spec hr hd hmem hfound
  have := hcovers.bounds_of_mem he
  rw [startAddress_settleStart hfound]
  omega

/-- Segments that take space take it apart from one another. -/
theorem placeSegments_apart [Sized α] {k : Category} {window : Region}
    {segments placed : List (Segment α)} (h : placeSegments k window segments = .ok placed) :
    placed.Pairwise fun s s' => segmentSpace k s ≠ 0 → segmentSpace k s' ≠ 0 →
      s.startAddress.toNat + (segmentSpace k s).toNat ≤ s'.startAddress.toNat ∨
        s'.startAddress.toNat + (segmentSpace k s').toNat ≤ s.startAddress.toNat := by
  obtain ⟨requests, extents, hr, hd, rfl⟩ := placeSegments_inv h
  have hidx : segments.zipIdx.Pairwise fun x y => x.2 ≠ y.2 := by
    rw [← List.pairwise_map (f := Prod.snd), List.zipIdx_map_snd]
    exact List.nodup_range'
  rw [List.pairwise_map]
  refine hidx.imp_of_mem ?_
  rintro ⟨s, i⟩ ⟨s', i'⟩ hs hs' hne
  simp only [segmentSpace_settleStart]
  intro hspace hspace'
  obtain ⟨e, hfound⟩ := extentOf?_of_space hr hd hs hspace
  obtain ⟨e', hfound'⟩ := extentOf?_of_space hr hd hs' hspace'
  obtain ⟨he, ho, hsize, -, hcovers⟩ := extentOf?_spec hr hd hs hfound
  obtain ⟨he', ho', hsize', -, -⟩ := extentOf?_spec hr hd hs' hfound'
  have hdiff : e ≠ e' := by
    rintro rfl
    exact hne (Int.ofNat_inj.1 (Option.some.inj (ho.symm.trans ho')))
  rw [startAddress_settleStart hfound, startAddress_settleStart hfound']
  have := hcovers.apart he he' hdiff
  omega

/-! ## Failures -/

/-- What makes placement fail: an address of a text segment between two words, or a layout that is
refused. What it asks for is never empty and never has an upper bound. -/
theorem placeSegments_eq_error [Sized α] {k : Category} {window : Region}
    {segments : List (Segment α)} {e : AssemblyError}
    (h : placeSegments k window segments = .error e) :
    (∃ start, e = .misaligned k start) ∨
      ∃ requests error, e = .layout k window error ∧
        layout requests window.start window.last = .error error ∧
        ∀ r ∈ requests, r.size ≠ 0 ∧ r.upper = none := by
  rw [placeSegments] at h
  rcases bind_eq_error.1 h with hr | ⟨requests, hr, h⟩
  · obtain ⟨⟨s, i⟩, -, hs⟩ := exists_of_mapM_eq_error hr
    simp only [segmentRequest] at hs
    split at hs
    · cases hs
    split at hs
    · cases hs
    · rename_i start _
      split at hs
      · exact .inl ⟨start, (Except.error.inj hs).symm⟩
      · cases hs
  rcases bind_eq_error.1 h with hd | ⟨extents, -, h⟩
  · rw [divideWindow] at hd
    split at hd
    · cases hd
    split at hd
    · cases hd
    rename_i error hlayout
    refine .inr ⟨_, error, (Except.error.inj hd).symm, hlayout, fun r hmem => ?_⟩
    obtain ⟨_, ho, rfl⟩ := List.mem_filterMap.1 hmem
    obtain ⟨⟨s, i⟩, -, hreq⟩ := exists_of_mem_right (mapM_eq_ok.1 hr) ho
    obtain ⟨rfl, hspace, -⟩ := segmentRequest_inv hreq
    exact ⟨hspace, rfl⟩
  · cases h

/-- The only step on the table that always fails is the one of an entry past the end of the window. -/
theorem fail_mem_labelActions [Sized α] {k : Category} {window : Region}
    {placed : List (Segment α)} {e : AssemblyError}
    (h : .fail e ∈ labelActions k window placed) :
    ∃ line start, e = .entry line (.overflow k.isText start window) := by
  obtain ⟨s, -, h⟩ := List.mem_flatMap.1 h
  generalize s.startAddress.toNat = a at h
  generalize s.entries = entries at h
  induction entries generalizing a with
  | nil => simp [actionsFrom] at h
  | cons entry entries ih =>
    rw [actionsFrom] at h
    split at h
    · exact ⟨_, _, LabelAction.fail.inj (List.mem_singleton.1 h)⟩
    · rcases List.mem_append.1 h with h | h
      · simp at h
      · exact ih _ h

end MipsAssembler
