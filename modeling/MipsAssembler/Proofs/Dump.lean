import MipsAssembler.Proofs.Numerals
import MipsAssembler.Proofs.StoreHistory

/-!
# The image as text

The text of a memory image lists its words. `replay_dump` says that after any history of stores it has
one line for each word that can be read, with its address and its value, and no other; that the
addresses ascend; and that it depends on nothing but the words that can be read.

A page knows its words by their place in the page, and where it starts gives the rest of the address.
What stores keep is that the pages are in place (`InPlace`): no key comes twice, each consists of the
upper 20 bits of an address, and the page starts at the first address with these. So the address of a
word does not wrap around (`toNat_wordAddress`), and the pages in the order of their keys, which are
sorted for this, give the words in order, whatever the order was in which the pages came into being.
-/

namespace MipsAssembler

open ByteString PagedMemory

namespace PagedMemory

/-! ## Addresses of words -/

/-- The address of a word of a page that starts at an address. -/
def wordAddress (start : UInt32) (i : Nat) : UInt32 := start + UInt32.ofNat i * 4

theorem toNat_wordAddress {key : UInt32} {i : Nat} (hkey : key.toNat < 0x100000)
    (hi : i < pageWords) :
    (wordAddress (key * 0x1000) i).toNat = 0x1000 * key.toNat + 4 * i := by
  rw [pageWords] at hi
  simp only [wordAddress, UInt32.toNat_add, UInt32.toNat_mul, UInt32.toNat_ofNat',
    UInt32.reduceToNat]
  omega

/-- An address of a word is made of its page and its place there, and of no others. -/
theorem wordAddress_eq_iff {key a : UInt32} {i : Nat} (hkey : key.toNat < 0x100000)
    (hi : i < pageWords) :
    wordAddress (key * 0x1000) i = a ↔ a.toNat % 4 = 0 ∧ pageOf a = key ∧ (slotOf a).val = i := by
  have ha := a.toNat_lt
  rw [← UInt32.toNat_inj, toNat_wordAddress hkey hi, ← @UInt32.toNat_inj (pageOf a)]
  rw [pageWords] at hi
  simp only [pageOf, slotOf, Fin.ofNat, pageWords, UInt32.toNat_div, UInt32.reduceToNat]
  omega

/-! ## The words of a page -/

theorem mem_pageEntries {p : Page} {a w : UInt32} :
    (a, w) ∈ p.entries ↔ ∃ i : Fin pageWords,
      wordAddress p.start i = a ∧ p.isInitialized a = true ∧ p.words.get i = w := by
  simp only [Page.entries, List.mem_filterMap, Prod.exists, Option.ite_none_right_eq_some,
    Option.some.injEq, Prod.mk.injEq]
  constructor
  · rintro ⟨word, i, hi, hbit, rfl, rfl⟩
    rw [List.mk_mem_zipIdx_iff_getElem?, Vector.getElem?_toList] at hi
    obtain ⟨hlt, hget⟩ := Vector.getElem?_eq_some_iff.1 hi
    exact ⟨⟨i, hlt⟩, rfl, hbit, hget⟩
  · rintro ⟨i, rfl, hbit, rfl⟩
    refine ⟨p.words.get i, i, ?_, hbit, rfl, rfl⟩
    rw [List.mk_mem_zipIdx_iff_getElem?, Vector.getElem?_toList]
    exact Vector.getElem?_eq_some_iff.2 ⟨i.isLt, rfl⟩

/-- The words of a page come in the order of their places. -/
theorem pairwise_pageEntries {p : Page} {key : UInt32} (hkey : key.toNat < 0x100000)
    (hstart : p.start = key * 0x1000) : p.entries.Pairwise fun x y => x.1 < y.1 := by
  have hplaces : p.words.toList.zipIdx.Pairwise fun x y => x.2 < y.2 := by
    rw [← List.pairwise_map (f := Prod.snd), List.zipIdx_map_snd]
    exact List.pairwise_lt_range'
  have hbound : ∀ x ∈ p.words.toList.zipIdx, x.2 < pageWords := by
    intro x hx
    simpa using List.snd_lt_of_mem_zipIdx hx
  refine List.pairwise_filterMap.2 (hplaces.imp_of_mem fun {x y} hx hy hxy => ?_)
  rintro b hb b' hb'
  obtain ⟨-, hb⟩ := Option.ite_none_right_eq_some.1 hb
  obtain ⟨-, hb'⟩ := Option.ite_none_right_eq_some.1 hb'
  obtain rfl := Option.some.inj hb
  obtain rfl := Option.some.inj hb'
  change wordAddress p.start x.2 < wordAddress p.start y.2
  rw [hstart, UInt32.lt_iff_toNat_lt, toNat_wordAddress hkey (hbound x hx),
    toNat_wordAddress hkey (hbound y hy)]
  omega

/-! ## The order of the pages -/

section Keys

variable (m : PagedMemory)

theorem pageKeys_perm : m.pageKeys.Perm (m.pages.map Prod.fst) := List.mergeSort_perm ..

theorem sorted_pageKeys : m.pageKeys.Pairwise (· ≤ ·) := by
  refine (List.pairwise_mergeSort (fun x y z hxy hyz => ?_) (fun x y => ?_) _).imp of_decide_eq_true
  · exact decide_eq_true (UInt32.le_trans (of_decide_eq_true hxy) (of_decide_eq_true hyz))
  · simpa using UInt32.le_total x y

/-- In whatever order the keys are taken out, sorting them gives the same list. -/
theorem eq_pageKeys {taken sorted : List UInt32} (htaken : taken.Perm (m.pages.map Prod.fst))
    (hperm : sorted.Perm taken) (hsorted : sorted.Pairwise (· ≤ ·)) : sorted = m.pageKeys :=
  ((hperm.trans htaken).trans m.pageKeys_perm.symm).eq_of_pairwise
    (fun _ _ _ _ => UInt32.le_antisymm) hsorted m.sorted_pageKeys

theorem mem_pageKeys {key : UInt32} : key ∈ m.pageKeys ↔ ∃ p, m.page? key = some p := by
  rw [m.pageKeys_perm.mem_iff, ← Option.isSome_iff_exists, page?, List.lookup_isSome_iff]
  simp

end Keys

/-- No key comes twice, each consists of the upper 20 bits of an address, and the page of a key starts
at the first address that has it. -/
structure InPlace (m : PagedMemory) : Prop where
  distinct : (m.pages.map Prod.fst).Nodup
  inRange : ∀ {key p}, m.page? key = some p → key.toNat < 0x100000
  start : ∀ {key p}, m.page? key = some p → p.start = key * 0x1000

theorem InPlace.ascending {m : PagedMemory} (h : m.InPlace) : m.pageKeys.Pairwise (· < ·) := by
  have hnodup : m.pageKeys.Nodup := m.pageKeys_perm.nodup_iff.2 h.distinct
  exact (List.pairwise_and_iff.2 ⟨m.sorted_pageKeys, hnodup⟩).imp fun ⟨hle, hne⟩ =>
    UInt32.lt_of_le_of_ne hle hne

/-! ## Entries -/

section Entries

variable {m m' : PagedMemory}

theorem mem_entries_iff {x : UInt32 × UInt32} :
    x ∈ m.entries ↔ ∃ key p, m.page? key = some p ∧ x ∈ p.entries := by
  simp only [entries, List.mem_flatMap, mem_pageKeys]
  constructor
  · rintro ⟨key, ⟨p, hp⟩, hx⟩
    exact ⟨key, p, hp, by simpa [hp] using hx⟩
  · rintro ⟨key, p, hp, hx⟩
    exact ⟨key, ⟨p, hp⟩, by simpa [hp] using hx⟩

/-- The entries are the words that can be read, each at its own address. -/
theorem mem_entries (hm : m.InPlace) {a w : UInt32} :
    (a, w) ∈ m.entries ↔ a.toNat % 4 = 0 ∧ m.loadWord? a = some w := by
  rw [mem_entries_iff]
  simp only [mem_pageEntries]
  constructor
  · rintro ⟨key, p, hp, i, ha, hbit, hget⟩
    rw [hm.start hp] at ha
    obtain ⟨hmod, rfl, hi⟩ := (wordAddress_eq_iff (hm.inRange hp) i.isLt).1 ha
    obtain rfl : slotOf a = i := Fin.ext hi
    refine ⟨hmod, ?_⟩
    rw [loadWord?, hp, ← hget]
    exact if_pos hbit
  · rintro ⟨hmod, hload⟩
    cases hp : m.page? (pageOf a) with
    | none => simp [loadWord?, hp] at hload
    | some p =>
      simp only [loadWord?, hp, Option.ite_none_right_eq_some, Option.some.injEq] at hload
      obtain ⟨hbit, hget⟩ := hload
      refine ⟨pageOf a, p, hp, slotOf a, ?_, hbit, hget⟩
      rw [hm.start hp]
      exact (wordAddress_eq_iff (hm.inRange hp) (slotOf a).isLt).2 ⟨hmod, rfl, rfl⟩

/-- The entries come in the order of their addresses. -/
theorem pairwise_entries (hm : m.InPlace) : m.entries.Pairwise fun x y => x.1 < y.1 := by
  have hpage : ∀ key ∈ m.pageKeys, ∃ p, m.page? key = some p ∧
      ((m.page? key).map Page.entries).getD [] = p.entries := by
    intro key hkey
    obtain ⟨p, hp⟩ := m.mem_pageKeys.1 hkey
    exact ⟨p, hp, by simp [hp]⟩
  refine List.pairwise_flatMap.2 ⟨fun key hkey => ?_, ?_⟩
  · obtain ⟨p, hp, hentries⟩ := hpage key hkey
    rw [hentries]
    exact pairwise_pageEntries (hm.inRange hp) (hm.start hp)
  refine hm.ascending.imp_of_mem fun {key key'} hkey hkey' hlt x hx y hy => ?_
  obtain ⟨p, hp, hentries⟩ := hpage key hkey
  obtain ⟨p', hp', hentries'⟩ := hpage key' hkey'
  obtain ⟨a, w⟩ := x
  obtain ⟨a', w'⟩ := y
  obtain ⟨i, rfl, -⟩ := mem_pageEntries.1 (hentries ▸ hx)
  obtain ⟨i', rfl, -⟩ := mem_pageEntries.1 (hentries' ▸ hy)
  rw [UInt32.lt_iff_toNat_lt] at hlt
  rw [hm.start hp, hm.start hp', UInt32.lt_iff_toNat_lt, toNat_wordAddress (hm.inRange hp) i.isLt,
    toNat_wordAddress (hm.inRange hp') i'.isLt]
  -- a page ends before the next one begins
  have hi : i.val < 1024 := i.isLt
  omega

/-- The entries depend on the words that can be read only. -/
theorem entries_congr (hm : m.InPlace) (hm' : m'.InPlace)
    (h : ∀ a, m.loadWord? a = m'.loadWord? a) : m.entries = m'.entries := by
  have hirrefl : ∀ x y : UInt32 × UInt32, x.1 < y.1 → x ≠ y := by
    rintro x y hlt rfl
    exact UInt32.lt_irrefl _ hlt
  have hperm : m.entries.Perm m'.entries :=
    (List.perm_ext_iff_of_nodup ((pairwise_entries hm).imp (hirrefl _ _))
      ((pairwise_entries hm').imp (hirrefl _ _))).2 fun x => by
        obtain ⟨a, w⟩ := x
        rw [mem_entries hm, mem_entries hm', h]
  exact hperm.eq_of_pairwise
    (fun x y _ _ hxy hyx => absurd (UInt32.lt_trans hxy hyx) (UInt32.lt_irrefl _))
    (pairwise_entries hm) (pairwise_entries hm')

end Entries

/-! ## What stores keep -/

theorem inPlace_empty : InPlace {} where
  distinct := .nil
  inRange h := by simp [page?] at h
  start h := by simp [page?] at h

/-- A page that comes into being is listed last, and no other is moved. -/
theorem map_fst_updatePage (key : UInt32) (f : Page → Page) (pages : List (UInt32 × Page)) :
    (updatePage key f pages).map Prod.fst =
      if key ∈ pages.map Prod.fst then pages.map Prod.fst else pages.map Prod.fst ++ [key] := by
  induction pages with
  | nil => rfl
  | cons x pages ih =>
    obtain ⟨k, p⟩ := x
    rw [updatePage]
    split <;> rename_i hk
    · simp [hk]
    · rw [List.map_cons, ih]
      simp only [List.map_cons, List.mem_cons, Ne.symm hk, false_or]
      split <;> rfl

namespace InPlace

variable {m : PagedMemory}

/-- All that stores do is to change words. -/
theorem updateWord (h : m.InPlace) (a : UInt32) (f : UInt32 → UInt32) :
    (m.updateWord a f).InPlace where
  distinct := by
    rw [PagedMemory.updateWord, map_fst_updatePage]
    split <;> rename_i hkey
    · exact h.distinct
    · exact List.nodup_append.2 ⟨h.distinct, by simp, fun k hk k' hk' heq =>
        hkey (List.mem_singleton.1 hk' ▸ heq ▸ hk)⟩
  inRange {key p} hp := by
    rw [page?_updateWord] at hp
    split at hp <;> rename_i hkey
    · have ha := a.toNat_lt
      rw [← hkey, pageOf, UInt32.toNat_div]
      simp only [UInt32.reduceToNat]
      omega
    · exact h.inRange hp
  start {key p} hp := by
    rw [page?_updateWord] at hp
    split at hp
    · obtain rfl := Option.some.inj hp
      rw [Page.start_update]
      cases hold : m.page? key with
      | none => rfl
      | some p => exact h.start hold
    · exact h.start hp

theorem storeBytes (h : m.InPlace) (a : UInt32) (bs : ByteString) :
    (m.storeBytes a bs).InPlace := by
  induction bs generalizing m a with
  | nil => exact h
  | cons b bs ih => exact ih (h.updateWord a _) (a + 1)

/-- **One store.** -/
theorem next (h : m.InPlace) (s : Store) : (s.next m).InPlace := by
  cases s with
  | byte a b => exact h.updateWord a _
  | bytes a bs => exact h.storeBytes a bs
  | word a value =>
    rw [Store.next_word]
    split
    · exact h.updateWord a _
    · exact h

/-- **A history of stores.** -/
theorem foldl_next (h : m.InPlace) (history : List Store) :
    (history.foldl Store.next m).InPlace := by
  induction history generalizing m with
  | nil => exact h
  | cons s history ih => exact ih (h.next s)

end InPlace

end PagedMemory

/-! ## Lines -/

/-- Text that is written line by line is read line by line, and nothing stands after the last. -/
theorem splitOn_lines {ls : List ByteString} (h : ∀ l ∈ ls, ascii '\n' ∉ l) :
    splitOn (ascii '\n') (ls.flatMap line) = ls ++ [[]] := by
  induction ls with
  | nil => rfl
  | cons l ls ih =>
    rw [List.forall_mem_cons] at h
    rw [List.flatMap_cons, line, List.append_assoc, splitOn_append h.1, List.singleton_append,
      splitOn, if_pos rfl, ih h.2, foldr_consHead, List.append_nil, List.cons_append]

theorem newline_notMem_hexWord (w : UInt32) : ascii '\n' ∉ hexWord w := by
  intro h
  have hnumeral := (isNumeral_hex 8 w.toNat).bytes _ h
  exact absurd hnumeral (by decide)

/-- The line of a word. -/
def wordLine (x : UInt32 × UInt32) : ByteString := hexWord x.1 ++ ": " ++ hexWord x.2

theorem newline_notMem_wordLine (x : UInt32 × UInt32) : ascii '\n' ∉ wordLine x := by
  have hcolon : ascii '\n' ∉ ofString ": " := by decide
  simp [wordLine, newline_notMem_hexWord, hcolon]

theorem PagedMemory.dump_eq (m : PagedMemory) : m.dump = (m.entries.map wordLine).flatMap line := by
  rw [List.flatMap_map]
  rfl

namespace Store

theorem inPlace_replay (history : List Store) : (replay history).InPlace :=
  inPlace_empty.foldl_next history

/-- **The text of an image is the list of its words.** After any history of stores there is one line
for each address of a word that can be read, with the address and what is read there; the addresses
ascend, and there is nothing else. The pages come in the order of their keys, in whatever order these
are taken out to be sorted. Histories after which the same words can be read have the same text. -/
theorem replay_dump :
    (∀ history, ∃ words : List (UInt32 × UInt32),
      words.Pairwise (fun x y => x.1 < y.1) ∧
      (∀ a w, (a, w) ∈ words ↔ a.toNat % 4 = 0 ∧ (replay history).loadWord? a = some w) ∧
      (replay history).dump = (words.map wordLine).flatMap line ∧
      splitOn (ascii '\n') (replay history).dump = words.map wordLine ++ [[]]) ∧
    (∀ history taken sorted, taken.Perm ((replay history).pages.map Prod.fst) →
      sorted.Perm taken → sorted.Pairwise (· ≤ ·) → sorted = (replay history).pageKeys) ∧
    ∀ history history', (∀ a, (replay history).loadWord? a = (replay history').loadWord? a) →
      (replay history).dump = (replay history').dump := by
  refine ⟨fun history => ?_, fun history _ _ => (replay history).eq_pageKeys,
    fun history history' h => ?_⟩
  · have hplace := inPlace_replay history
    refine ⟨_, pairwise_entries hplace, fun a w => mem_entries hplace, dump_eq _, ?_⟩
    rw [dump_eq]
    refine splitOn_lines fun l hl => ?_
    obtain ⟨x, -, rfl⟩ := List.mem_map.1 hl
    exact newline_notMem_wordLine x
  · rw [dump_eq, dump_eq, entries_congr (inPlace_replay history) (inPlace_replay history') h]

/-- Stores to the last page of the address space, across its end, and to a page in between. -/
def outermostStores : List Store :=
  [.word 0xFFFFFFFC 7, .bytes 0xFFFFFFFE [3, 4, 5], .word 0x1004 9]

/-- The same words, stored in another order. -/
def outermostWords : List Store := [.word 0 5, .word 0xFFFFFFFC 0x04030007, .word 0x1004 9]

/-- The lines are in the order of the addresses, the last of which is that of the topmost word. -/
theorem replay_dump_outermost :
    (replay outermostStores).dump = ofString ("0x00000000: 0x00000005\n" ++
      "0x00001004: 0x00000009\n0xFFFFFFFC: 0x04030007\n") ∧
    (∀ a, (replay outermostStores).loadWord? a = (replay outermostWords).loadWord? a) ∧
    (replay outermostStores).dump = (replay outermostWords).dump := by
  have hsame : ∀ a, (replay outermostStores).loadWord? a = (replay outermostWords).loadWord? a := by
    intro a
    -- three words are stored, and no history touches any other
    by_cases hlow : SameWord 0 a
    · rw [← loadWord?_congr _ hlow, ← loadWord?_congr _ hlow]
      decide +kernel
    by_cases hmid : SameWord 0x1004 a
    · rw [← loadWord?_congr _ hmid, ← loadWord?_congr _ hmid]
      decide +kernel
    by_cases htop : SameWord 0xFFFFFFFC a
    · rw [← loadWord?_congr _ htop, ← loadWord?_congr _ htop]
      decide +kernel
    have hbytes : ∀ m : PagedMemory, next m (.bytes 0xFFFFFFFE [3, 4, 5]) =
      ((m.storeByte 0xFFFFFFFE 3).storeByte 0xFFFFFFFF 4).storeByte 0 5 := fun _ => rfl
    simp only [SameWord, UInt32.reduceToNat, UInt32.toNat_zero, Nat.reduceDiv, Nat.zero_div]
      at hlow hmid htop
    simp only [replay, outermostStores, outermostWords, List.foldl_cons, List.foldl_nil, next_word,
      hbytes, storeByte, loadWord?_updateWord, SameWord, UInt32.reduceToNat, UInt32.toNat_zero,
      Nat.reduceDiv, Nat.reduceMod, Nat.zero_div, Nat.zero_mod, hlow, hmid, htop, ↓reduceIte]
  have hkeys : (replay outermostStores).pageKeys = [0, 1, 0xFFFFF] :=
    (eq_pageKeys _ (.refl _) (by decide +kernel) (by decide)).symm
  refine ⟨?_, hsame, replay_dump.2.2 _ _ hsame⟩
  rw [dump, entries, hkeys]
  decide +kernel

end Store

end MipsAssembler
