import MipsAssembler.Proofs.Linking
import MipsAssembler.Proofs.Written

/-!
# The symbol table as a map of the labels

A program that is resolved comes with the values of its labels. The table knows the labels of the
program with their halves and no other name, and the value of a label is the address of the entry
that carries it: the start of its segment and the bytes of all entries before it, counted without
bound (`Program.resolve_labels`).

Settling fixes the addresses and linking keeps them, so that `Program.resolve_settles` is all that
has to be known of linking.
-/

namespace MipsAssembler

open ByteString Outcome

variable {α : Type}

/-! ## From settled to resolved programs -/

/-- The second segment and its entries have the places and the sizes of the first. -/
structure Segment.SamePlaces [Sized α] (s s' : Segment α) : Prop where
  start : s'.start = s.start
  places : s'.entries.map (·.place) = s.entries.map (·.place)
  sizes : (s'.entries.map fun e => byteSize e.item) = s.entries.map fun e => byteSize e.item

theorem Segment.Linked.samePlaces {t : SymbolTable} {s s' : Segment Instruction}
    (h : Segment.Linked t s s') : s.SamePlaces s' where
  start := h.start
  places := (map_eq_map_of_forall₂ (fun _ _ he => he.place.symm) h.entries).symm
  sizes := (map_eq_map_of_forall₂ (fun _ _ _ => rfl) h.entries).symm

/-- A resolved program has the places of the settled one. -/
theorem Program.resolve_settles {w : Windows} {p q : Program} {t : SymbolTable}
    (h : p.resolve w = .ok (q, t)) :
    w.check = .ok () ∧ ∃ placed, Settles w p.expand placed t ∧
      ∀ k, List.Forall₂ Segment.SamePlaces ((placed k).map Segment.assign) (q.segments k) := by
  obtain ⟨hcheck, settled, hs, hl⟩ := Program.resolve_eq_ok.1 h
  obtain ⟨placed, hsettles, hplaced⟩ := Program.settle_eq_ok.1 hs
  refine ⟨hcheck, placed, hsettles, fun k => ?_⟩
  rw [← hplaced k]
  cases k with
  | text m =>
    exact (Program.link_linked hl (Program.settle_addressed hs).1 m).imp fun _ _ => (·.samePlaces)
  | data m =>
    have hdata : q.data m = settled.data m := (Program.link_eq_ok hl).2 m
    change List.Forall₂ _ (settled.data m) (q.data m)
    rw [hdata, List.forall₂_same]
    exact fun s _ => ⟨rfl, rfl, rfl⟩

/-- No window that passes the check starts at zero. -/
theorem Windows.start_ne_zero {w : Windows} (h : w.check = .ok ()) (k : Category) :
    (w.region k).start ≠ 0 :=
  (check_region h k).2

/-! ## Entries -/

theorem assignFrom_append [Sized α] (a : Nat) (before after : List (Entry α)) :
    assignFrom a (before ++ after) =
      assignFrom a before ++ assignFrom (a + totalSize before) after := by
  induction before generalizing a with
  | nil => simp [assignFrom]
  | cons e before ih => simp [assignFrom, ih, Nat.add_assoc]

theorem length_assignFrom [Sized α] (a : Nat) (es : List (Entry α)) :
    (assignFrom a es).length = es.length := (assignFrom_located a es).length_eq.symm

/-- The address of an entry: that of the first and the bytes of all entries between. -/
theorem getElem?_assignFrom [Sized α] (a : Nat) (before after : List (Entry α)) (e : Entry α) :
    (assignFrom a (before ++ e :: after))[before.length]? =
      some { e with place := placeAt (UInt32.ofNat (a + totalSize before)) e.place } := by
  rw [assignFrom_append, List.getElem?_append_right (length_assignFrom ..).le, length_assignFrom,
    Nat.sub_self, assignFrom, List.getElem?_cons_zero]

/-! ## Halves -/

theorem div_eq_shiftRight (a : UInt32) : a / (0x10000 : UInt32) = a >>> 16 := by
  rw [← UInt32.toNat_inj]
  simp [Nat.shiftRight_eq_div_pow]

theorem mod_eq_and (a : UInt32) : a % 0x10000 = a &&& 0xFFFF := by
  rw [← UInt32.toNat_inj]
  simp only [UInt32.toNat_mod, UInt32.toNat_and]
  exact (Nat.and_two_pow_sub_one_eq_mod a.toNat 16).symm

/-- The halves of an address make it up. -/
theorem halves_join (a : UInt32) : (a >>> 16) <<< 16 ||| (a &&& 0xFFFF) = a := by
  have ha := a.toNat_lt
  have hlow : a.toNat % 2 ^ 16 < 2 ^ 16 := Nat.mod_lt _ (by decide)
  have hhigh : a.toNat >>> 16 <<< 16 < 2 ^ 32 := by
    rw [Nat.shiftRight_eq_div_pow, Nat.shiftLeft_eq]
    omega
  rw [← UInt32.toNat_inj]
  change a.toNat >>> 16 <<< 16 % 2 ^ 32 ||| a.toNat &&& (2 ^ 16 - 1) = a.toNat
  rw [Nat.mod_eq_of_lt hhigh, Nat.and_two_pow_sub_one_eq_mod, ← Nat.shiftLeft_add_eq_or_of_lt hlow,
    Nat.shiftLeft_eq, Nat.shiftRight_eq_div_pow]
  omega

theorem upper_le (a : UInt32) : (a >>> 16).toNat ≤ 0xFFFF := by
  have ha := a.toNat_lt
  simp only [UInt32.toNat_shiftRight, UInt32.reduceToNat, Nat.reduceMod, Nat.shiftRight_eq_div_pow]
  omega

theorem lower_le (a : UInt32) : (a &&& 0xFFFF).toNat ≤ 0xFFFF := by
  rw [UInt32.toNat_and]
  exact Nat.and_le_right

/-! ## The map -/

/-- The name has the given value, and so have its halves. -/
structure SymbolTable.Maps (t : SymbolTable) (n : ByteString) (a : UInt32) : Prop where
  whole : t.lookup n = some a
  upper : t.lookup (n ++ upperEnding) = some (a >>> 16)
  lower : t.lookup (n ++ lowerEnding) = some (a &&& 0xFFFF)
  join : (a >>> 16) <<< 16 ||| (a &&& 0xFFFF) = a

theorem SymbolTable.Records.maps {t : SymbolTable} {ds : List Definition} (h : t.Records ds)
    {d : Definition} (hd : d ∈ ds) : t.Maps d.name d.address where
  whole := (h.lookup_iff _ _).2 ⟨d, hd, by simp [Definition.symbols]⟩
  upper := (h.lookup_iff _ _).2 ⟨d, hd, by simp [Definition.symbols, div_eq_shiftRight]⟩
  lower := (h.lookup_iff _ _).2 ⟨d, hd, by simp [Definition.symbols, mod_eq_and]⟩
  join := halves_join _

/-- A segment of a program, with the segment that it becomes when the program is resolved. It has a
start, which is the given one if there is one, and each of its entries has the address of the start
and the bytes of the entries before. That is the value of the labels of the entry. -/
structure Segment.Mapped [Sized α] (t : SymbolTable) (s s' : Segment α) : Prop where
  start : ∃ a, addressOf? s'.start = some a ∧ a ≠ 0 ∧ ∀ b, addressOf? s.start = some b → a = b
  length : s'.entries.length = s.entries.length
  entry : ∀ before e after, s.entries = before ++ e :: after →
    ∃ e' a, s'.entries[before.length]? = some e' ∧ labelsOf e'.place = labelsOf e.place ∧
      addressOf? e'.place = some a ∧ a ≠ 0 ∧
      a.toNat = s'.startAddress.toNat + totalSize before ∧ ∀ n ∈ labelsOf e.place, t.Maps n a

namespace Segment

variable [Sized α] {t : SymbolTable} {window : Region} {k : Category}

/-- A segment at its place, with addresses for its entries that fit. -/
theorem mapped_assign {s s' : Segment α} {ds : List Definition} (hrecords : t.Records ds)
    (hentries : s'.entries = s.entries)
    (hstart : ∃ a, addressOf? s'.start = some a ∧ a ≠ 0 ∧ ∀ b, addressOf? s.start = some b → a = b)
    (hfits : s'.entries ≠ [] → s'.startAddress.toNat + totalSize s'.entries < 2 ^ 32)
    (hdefined : ∀ e ∈ s'.assign.entries, e.definitions ⊆ ds) : Mapped t s s'.assign where
  start := hstart
  length := by rw [Segment.assign, length_assignFrom, hentries]
  entry := by
    intro before e after hsplit
    obtain ⟨start, hs, hne, -⟩ := hstart
    have haddress : s'.startAddress = start := by rw [Segment.startAddress, hs, Option.getD_some]
    have hpos : 0 < start.toNat := Nat.pos_of_ne_zero fun h => hne (UInt32.toNat_inj.1 h)
    rw [hentries, hsplit, haddress, totalSize_append] at hfits
    have hlt : start.toNat + totalSize before < 2 ^ 32 := by
      have := hfits (by simp)
      omega
    have hnat : (UInt32.ofNat (start.toNat + totalSize before)).toNat =
        start.toNat + totalSize before := by
      rw [UInt32.toNat_ofNat', Nat.mod_eq_of_lt hlt]
    have hget : s'.assign.entries[before.length]? = some { e with
        place := placeAt (UInt32.ofNat (start.toNat + totalSize before)) e.place } := by
      rw [Segment.assign, hentries, hsplit, haddress]
      exact getElem?_assignFrom ..
    refine ⟨_, UInt32.ofNat (start.toNat + totalSize before), hget, rfl, rfl, fun hzero => ?_, ?_,
      fun n hn => ?_⟩
    · rw [hzero, UInt32.toNat_zero] at hnat
      omega
    · rw [hnat, ← haddress]
      rfl
    · have hdef := hdefined _ (List.mem_of_getElem? hget)
      exact hrecords.maps (hdef (List.mem_map.2 ⟨n, hn, rfl⟩))

/-- The addresses are what counts. -/
theorem Mapped.of_samePlaces {s s₁ s₂ : Segment α} (h : Mapped t s s₁) (hsame : s₁.SamePlaces s₂) :
    Mapped t s s₂ where
  start := hsame.start ▸ h.start
  length := by
    have hlength := congrArg List.length hsame.places
    simp only [List.length_map] at hlength
    rw [hlength, h.length]
  entry := by
    intro before e after hsplit
    obtain ⟨e₁, a, hget, hlabels, haddress, hne, hnat, hmaps⟩ := h.entry before e after hsplit
    have hplaces := congrArg (fun places => places[before.length]?) hsame.places
    simp only [List.getElem?_map, hget, Option.map_some] at hplaces
    obtain ⟨e₂, hget₂, hplace⟩ := Option.map_eq_some_iff.1 hplaces
    refine ⟨e₂, a, hget₂, hplace ▸ hlabels, hplace ▸ haddress, hne, ?_, hmaps⟩
    rw [hnat, Segment.startAddress, Segment.startAddress, hsame.start]

end Segment

namespace Settles

variable {w : Windows} {p : Program} {placed : (k : Category) → List (Segment k.Item)}
  {t : SymbolTable}

/-- The entries of a settled segment end inside the window. -/
theorem entries_fit (h : Settles w p placed t) {k : Category} {s : Segment k.Item}
    (hs : s ∈ placed k) (hne : s.entries ≠ []) :
    s.startAddress.toNat + totalSize s.entries ≤ (w.region k).stop.toNat := by
  refine actionsFrom_fits k s.startAddress (fun e he => ?_) hne
  exact h.fits k e (List.mem_flatMap.2 ⟨s, hs, he⟩)

/-- The segments of a program that is settled are mapped. -/
theorem mapped (h : Settles w p placed t) (hcheck : w.check = .ok ()) (k : Category)
    (hgiven : ∀ s ∈ p.segments k, addressOf? s.start ≠ some 0) :
    List.Forall₂ (Segment.Mapped t) (p.segments k) ((placed k).map Segment.assign) := by
  rw [List.forall₂_map_right_iff]
  have hstarts := placeSegments_starts (h.place k)
  have hentries := placeSegments_entries (h.place k)
  refine (forall₂_mem (hstarts.mp (fun _ _ => And.intro) hentries)).imp ?_
  rintro s s' ⟨hs, hs', ⟨a, ha, hstart⟩, hsame⟩
  refine Segment.mapped_assign h.records hsame ⟨a, ha, ?_, ?_⟩ (fun hne => ?_) fun e he d hd => ?_
  · rintro rfl
    rcases hstart with hstart | ⟨-, hle⟩
    · exact hgiven s hs hstart
    · exact Windows.start_ne_zero hcheck k (UInt32.le_zero_iff.1 hle)
  · intro b hb
    rcases hstart with hstart | ⟨hnone, -⟩
    · exact Option.some.inj (hstart.symm.trans hb)
    · simp [hnone] at hb
  · exact (h.entries_fit hs' hne).trans_lt (UInt32.toNat_lt _)
  · refine List.mem_flatMap.2 ⟨k, k.mem_all, List.mem_flatMap.2 ⟨s'.assign, ?_, ?_⟩⟩
    · exact List.mem_map_of_mem hs'
    · exact List.mem_flatMap.2 ⟨e, he, hd⟩

end Settles

/-- The start of a segment is as the source gives it, also after expansion. -/
theorem Program.Written.start_ne_zero {p : Program} (h : p.Written) {k : Category}
    {s : Segment k.Item} (hs : s ∈ p.expand.segments k) : addressOf? s.start ≠ some 0 := by
  cases k with
  | text m =>
    rw [Program.segments_expand_text] at hs
    obtain ⟨s₀, hs₀, rfl⟩ := List.mem_map.1 hs
    exact (h.text m s₀ hs₀).start
  | data m =>
    rw [Program.segments_expand_data] at hs
    exact (h.data m s hs).start

/-- The segments of a program from a source are mapped when it is resolved. -/
theorem Program.Written.mapped {w : Windows} {p q : Program} {t : SymbolTable} (hw : p.Written)
    (h : p.resolve w = .ok (q, t)) (k : Category) :
    List.Forall₂ (Segment.Mapped t) (p.expand.segments k) (q.segments k) := by
  obtain ⟨hcheck, placed, hsettles, hplaces⟩ := Program.resolve_settles h
  have hsettled := hsettles.mapped hcheck k fun s hs => hw.start_ne_zero hs
  exact forall₂_trans (fun _ _ _ hmapped hsame => hmapped.of_samePlaces hsame) hsettled (hplaces k)

/-- **The symbol table is the map of the labels.** A name is in the table of a program that is read
from a source and resolved exactly if it comes with a label of the program. Every segment has a start
that is not zero and is the given one if there is one; every entry has an address that is not zero,
the start and the bytes of all entries before it, and that is the value of its labels. -/
theorem Program.resolve_labels {src : ByteString} {w : Windows} {p q : Program} {t : SymbolTable}
    (hparse : Program.parse src = .ok p) (h : p.resolve w = .ok (q, t)) :
    (∀ x, (t.lookup x).isSome ↔ ∃ n ∈ p.labels, x ∈ namesOf n) ∧
      ∀ k, List.Forall₂ (Segment.Mapped t) (p.expand.segments k) (q.segments k) := by
  refine ⟨fun x => ?_, (Program.parse_written hparse).mapped h⟩
  obtain ⟨-, placed, hsettles, -⟩ := Program.resolve_settles h
  rw [hsettles.records.isSome_lookup, ← p.labels_expand, ← hsettles.names_eq]
  simp only [List.mem_map, exists_exists_and_eq_and]

/-- A source with a given start, a pseudo instruction and bytes between labels. -/
def labelledSource : ByteString :=
  ".text 0x0A000100\nmain: la $a0, list\nloop: beq $a0, $zero, main\n" ++
    ".data\nflag: .byte 1\nlist: .word 2, 3\n"

/-- The pseudo instruction takes two words, and the words of the list are aligned. -/
theorem Program.resolve_labels_aligned :
    ∃ p q t, Program.parse labelledSource = .ok p ∧ p.resolve {} = .ok (q, t) ∧
      t.lookup "loop" = some 0x0A000108 ∧ t.lookup "list@lo" = some 4 ∧
      (∀ x, (t.lookup x).isSome ↔ ∃ n ∈ p.labels, x ∈ namesOf n) ∧
      ∀ k, List.Forall₂ (Segment.Mapped t) (p.expand.segments k) (q.segments k) := by
  have hvalues : ((Program.parse labelledSource).toOption.bind fun p =>
      (p.resolve {}).toOption.map fun r => (r.2.lookup "loop", r.2.lookup "list@lo")) =
      some (some 0x0A000108, some 4) := by decide +kernel
  obtain ⟨p, hp, hvalues⟩ := Option.bind_eq_some_iff.1 hvalues
  obtain ⟨⟨q, t⟩, hq, hvalues⟩ := Option.map_eq_some_iff.1 hvalues
  obtain ⟨hloop, hlist⟩ := Prod.mk.inj hvalues
  have hparse := eq_ok_of_toOption hp
  have hresolve := eq_ok_of_toOption hq
  exact ⟨p, q, t, hparse, hresolve, hloop, hlist, Program.resolve_labels hparse hresolve⟩

end MipsAssembler
