import Mathlib.Algebra.Group.Nat.Defs
import Mathlib.Logic.Function.Basic
import MipsAssembler.PagedMemory

/-!
# The paged memory as a flat one

A paged memory keeps words, and a bit for each word that says whether it was written; a flat memory is a
partial function from addresses to bytes. `Refines` relates the two: a word is written if one of its
bytes is, and its bytes are those of the flat memory, zero where there is none. A byte is written into
what stands in its word, whether the bit of the word is set or not, so that it belongs to the relation
that the words whose bits are not set are zero.

* The bits of a page are independent of one another (`Page.isInitialized_mark`), and so are the words of
  a paged memory (`loadWord?_updateWord`) and the bytes of a word (`byteOf_setByte`).
* Each way to write keeps the relation (`Refines.storeByte`, `Refines.storeBytes`,
  `Refines.updateWord`).
-/

namespace MipsAssembler

open PagedMemory

/-! ## The bits of a page -/

namespace Page

theorem toNat_shift {i : Nat} (hi : i < 32) : (UInt32.ofNat i).toNat % 32 = i := by
  rw [UInt32.toNat_ofNat']
  omega

theorem shiftRight_and_one (w : UInt32) {i : Nat} (hi : i < 32) :
    (w >>> UInt32.ofNat i) &&& 1 = 1 ↔ w.toNat.testBit i = true := by
  rw [← UInt32.toNat_inj, UInt32.toNat_and, UInt32.toNat_shiftRight, toNat_shift hi,
    UInt32.toNat_one, Nat.and_one_is_mod, Nat.shiftRight_eq_div_pow,
    Nat.testBit_eq_decide_div_mod_eq, decide_eq_true_eq]

theorem testBit_or_shiftLeft (w : UInt32) {i : Nat} (hi : i < 32) (j : Nat) :
    (w ||| 1 <<< UInt32.ofNat i).toNat.testBit j = (w.toNat.testBit j || decide (i = j)) := by
  have hlt : 2 ^ i < 2 ^ 32 := Nat.pow_lt_pow_right (by decide) hi
  have hpow : ((1 : UInt32) <<< UInt32.ofNat i).toNat = 2 ^ i := by
    rw [UInt32.toNat_shiftLeft, toNat_shift hi, UInt32.toNat_one, Nat.one_shiftLeft,
      Nat.mod_eq_of_lt hlt]
  rw [UInt32.toNat_or, Nat.testBit_or, hpow, Nat.testBit_two_pow]

/-- No two words have the same bit of the same entry. -/
theorem slot_eq_iff {s t : Fin pageWords} :
    s = t ↔ bitEntry s = bitEntry t ∧ s.val % 32 = t.val % 32 := by
  simp only [bitEntry, Fin.ext_iff]
  omega

theorem isInitialized_iff (p : Page) (a : UInt32) :
    p.isInitialized a = true ↔
      (p.initialized.get (bitEntry (slotOf a))).toNat.testBit ((slotOf a).val % 32) = true := by
  rw [isInitialized, decide_eq_true_eq, bitNumber]
  exact shiftRight_and_one _ (Nat.mod_lt _ (by decide))

theorem isInitialized_blank (key a : UInt32) : (blank key).isInitialized a = false := by
  rw [← Bool.not_eq_true, isInitialized_iff]
  simp [blank, Vector.get]

/-- Marking a word sets its bit and no other. -/
theorem isInitialized_mark (p : Page) (a b : UInt32) :
    (p.mark a).isInitialized b = true ↔ slotOf a = slotOf b ∨ p.isInitialized b = true := by
  rw [isInitialized_iff, isInitialized_iff, slot_eq_iff]
  by_cases hentry : bitEntry (slotOf a) = bitEntry (slotOf b)
  · have hget : (p.mark a).initialized.get (bitEntry (slotOf b)) =
        p.initialized.get (bitEntry (slotOf b)) ||| 1 <<< bitNumber (slotOf a) := by
      rw [← hentry]
      exact Vector.getElem_set_self _
    rw [hget, bitNumber, testBit_or_shiftLeft _ (Nat.mod_lt _ (by decide)), Bool.or_eq_true,
      decide_eq_true_eq]
    simp [hentry, or_comm]
  · have hget : (p.mark a).initialized.get (bitEntry (slotOf b)) =
        p.initialized.get (bitEntry (slotOf b)) :=
      Vector.getElem_set_ne (bitEntry _).isLt (bitEntry _).isLt fun h => hentry (Fin.ext h)
    simp [hget, hentry]

section Update

variable (p : Page) (a : UInt32) (f : UInt32 → UInt32)

theorem isInitialized_update (b : UInt32) :
    (p.update a f).isInitialized b = true ↔ slotOf a = slotOf b ∨ p.isInitialized b = true :=
  isInitialized_mark ..

theorem get_update (s : Fin pageWords) :
    (p.update a f).words.get s = if slotOf a = s then f (p.words.get s) else p.words.get s := by
  split <;> rename_i hs
  · subst hs
    exact Vector.getElem_set_self _
  · exact Vector.getElem_set_ne (slotOf a).isLt s.isLt fun h => hs (Fin.ext h)

theorem start_update : (p.update a f).start = p.start := rfl

end Update

end Page

namespace PagedMemory

/-! ## Words and their bytes -/

/-- Byte number `i` of a word, the least significant first. -/
def byteOf (word : UInt32) (i : Nat) : UInt8 := UInt8.ofNat (word.toNat / 2 ^ (8 * i))

theorem byteOf_zero (i : Nat) : byteOf 0 i = 0 := by simp [byteOf]

theorem toNat_byteOf (word : UInt32) (i : Nat) :
    (byteOf word i).toNat = word.toNat / 2 ^ (8 * i) % 256 := UInt8.toNat_ofNat'

theorem testBit_byteOf (word : UInt32) (i k : Nat) :
    (byteOf word i).toNat.testBit k = (decide (k < 8) && word.toNat.testBit (8 * i + k)) := by
  rw [toNat_byteOf, show 256 = 2 ^ 8 from rfl, Nat.testBit_mod_two_pow, Nat.testBit_div_two_pow,
    Nat.add_comm]

theorem testBit_toNat_of_le (b : UInt8) {k : Nat} (hk : 8 ≤ k) : b.toNat.testBit k = false :=
  Nat.testBit_lt_two_pow (Nat.lt_of_lt_of_le b.toNat_lt (Nat.pow_le_pow_right (by decide) hk))

theorem testBit_not (word : UInt32) {k : Nat} (hk : k < 32) :
    (~~~word).toNat.testBit k = !word.toNat.testBit k := by
  have hnot : (~~~word).toNat = 2 ^ 32 - (word.toNat + 1) := by
    rw [UInt32.toNat_not, UInt32.size]
    omega
  rw [hnot, Nat.testBit_two_pow_sub_succ word.toNat_lt, decide_eq_true hk, Bool.true_and]

/-- Of the bits of a word, those of the byte that is replaced come from the new byte. -/
theorem testBit_setByte (word : UInt32) {i k : Nat} (hi : i < 4) (hk : k < 32) (b : UInt8) :
    (setByte word i b).toNat.testBit k =
      if 8 * i ≤ k ∧ k < 8 * i + 8 then b.toNat.testBit (k - 8 * i) else word.toNat.testBit k := by
  have hshift := Page.toNat_shift (show 8 * i < 32 by omega)
  have hmask : (0xFF <<< UInt32.ofNat (8 * i) : UInt32).toNat.testBit k =
      decide (8 * i ≤ k ∧ k < 8 * i + 8) := by
    rw [UInt32.toNat_shiftLeft, hshift, show (0xFF : UInt32).toNat = 2 ^ 8 - 1 from rfl]
    simp only [Nat.testBit_mod_two_pow, Nat.testBit_shiftLeft, Nat.testBit_two_pow_sub_one]
    grind
  have hbyte : (b.toUInt32 <<< UInt32.ofNat (8 * i)).toNat.testBit k =
      (decide (8 * i ≤ k) && b.toNat.testBit (k - 8 * i)) := by
    rw [UInt32.toNat_shiftLeft, hshift, UInt8.toNat_toUInt32, Nat.testBit_mod_two_pow,
      Nat.testBit_shiftLeft, decide_eq_true hk, Bool.true_and]
  rw [setByte, UInt32.toNat_or, UInt32.toNat_and, Nat.testBit_or, Nat.testBit_and, testBit_not _ hk,
    hmask, hbyte]
  by_cases hin : 8 * i ≤ k ∧ k < 8 * i + 8
  · simp [hin]
  · have hout : (decide (8 * i ≤ k) && b.toNat.testBit (k - 8 * i)) = false := by
      by_cases hle : 8 * i ≤ k
      · rw [testBit_toNat_of_le b (show 8 ≤ k - 8 * i by omega), Bool.and_false]
      · rw [decide_eq_false hle, Bool.false_and]
    rw [hout, if_neg hin, decide_eq_false hin, Bool.not_false, Bool.and_true, Bool.or_false]

/-- The bytes of a word are independent of one another. -/
theorem byteOf_setByte (word : UInt32) {i j : Nat} (hi : i < 4) (hj : j < 4) (b : UInt8) :
    byteOf (setByte word i b) j = if j = i then b else byteOf word j := by
  rw [← UInt8.toNat_inj]
  refine Nat.eq_of_testBit_eq fun k => ?_
  rcases Nat.lt_or_ge k 8 with hk | hk
  · rw [testBit_byteOf, testBit_setByte word hi (by omega), decide_eq_true hk, Bool.true_and]
    by_cases hji : j = i
    · rw [if_pos (by omega), if_pos hji, hji, Nat.add_sub_cancel_left]
    · rw [if_neg (by omega), if_neg hji, testBit_byteOf, decide_eq_true hk, Bool.true_and]
  · rw [testBit_toNat_of_le _ hk, testBit_toNat_of_le _ hk]

/-- A word is known by its bytes. -/
theorem eq_of_byteOf_eq {v w : UInt32} (h : ∀ i < 4, byteOf v i = byteOf w i) : v = w := by
  have hbyte : ∀ i < 4, v.toNat / 2 ^ (8 * i) % 256 = w.toNat / 2 ^ (8 * i) % 256 := fun i hi => by
    rw [← toNat_byteOf, ← toNat_byteOf, h i hi]
  have h₀ := hbyte 0 (by decide)
  have h₁ := hbyte 1 (by decide)
  have h₂ := hbyte 2 (by decide)
  have h₃ := hbyte 3 (by decide)
  have hv := v.toNat_lt
  have hw := w.toNat_lt
  rw [← UInt32.toNat_inj]
  omega

/-- Do two addresses lie in one word? -/
def SameWord (a b : UInt32) : Prop := a.toNat / 4 = b.toNat / 4

instance (a b : UInt32) : Decidable (SameWord a b) := inferInstanceAs (Decidable (_ = _))

theorem sameWord_iff {a b : UInt32} : SameWord a b ↔ pageOf a = pageOf b ∧ slotOf a = slotOf b := by
  rw [SameWord, ← UInt32.toNat_inj, Fin.ext_iff]
  simp only [pageOf, slotOf, Fin.ofNat, pageWords, UInt32.toNat_div, UInt32.reduceToNat]
  omega

@[simp] theorem sameWord_self (a : UInt32) : SameWord a a := rfl

theorem SameWord.eq {a b : UInt32} (h : SameWord a b) (hr : a.toNat % 4 = b.toNat % 4) : a = b := by
  rw [SameWord] at h
  rw [← UInt32.toNat_inj]
  omega

/-- The address of byte number `i` of the word that holds an address. -/
def wordByte (a : UInt32) (i : Nat) : UInt32 := UInt32.ofNat (a.toNat / 4 * 4 + i)

theorem toNat_wordByte (a : UInt32) {i : Nat} (hi : i < 4) :
    (wordByte a i).toNat = a.toNat / 4 * 4 + i := by
  have ha := a.toNat_lt
  exact UInt32.toNat_ofNat_of_lt' (show a.toNat / 4 * 4 + i < 2 ^ 32 by omega)

theorem sameWord_wordByte (a : UInt32) {i : Nat} (hi : i < 4) : SameWord a (wordByte a i) := by
  rw [SameWord, toNat_wordByte a hi]
  omega

theorem wordByte_mod (a : UInt32) {i : Nat} (hi : i < 4) : (wordByte a i).toNat % 4 = i := by
  rw [toNat_wordByte a hi]
  omega

theorem lookup_updatePage (key k : UInt32) (f : Page → Page) (pages : List (UInt32 × Page)) :
    (updatePage key f pages).lookup k =
      if key = k then some (f ((pages.lookup k).getD (.blank k))) else pages.lookup k := by
  induction pages with
  | nil =>
    by_cases hk : key = k
    · subst hk
      simp [updatePage]
    · simp [updatePage, List.lookup_cons, hk, beq_false_of_ne (Ne.symm hk)]
  | cons x pages ih =>
    obtain ⟨k', p⟩ := x
    rw [updatePage]
    split <;> rename_i hkey
    · subst hkey
      by_cases hk : k' = k
      · subst hk
        simp
      · simp [List.lookup_cons, hk, beq_false_of_ne (Ne.symm hk)]
    · rw [List.lookup_cons, List.lookup_cons, ih]
      by_cases hk : k = k'
      · subst hk
        simp [Ne.symm hkey]
      · simp [beq_false_of_ne hk]

/-- What stands in the word that holds an address, whether it was written or not. -/
def wordAt (m : PagedMemory) (a : UInt32) : UInt32 :=
  ((m.page? (pageOf a)).getD (.blank (pageOf a))).words.get (slotOf a)

section Words

variable (m : PagedMemory)

theorem loadWord?_congr {a b : UInt32} (h : SameWord a b) : m.loadWord? a = m.loadWord? b := by
  obtain ⟨hp, hs⟩ := sameWord_iff.1 h
  have hbit (p : Page) : p.isInitialized a = p.isInitialized b := by
    rw [Page.isInitialized, Page.isInitialized, hs]
  simp only [loadWord?, hbit, hp, hs]

theorem page?_updateWord (a : UInt32) (f : UInt32 → UInt32) (key : UInt32) :
    (m.updateWord a f).page? key =
      if pageOf a = key then some (((m.page? key).getD (.blank key)).update a f)
      else m.page? key :=
  lookup_updatePage ..

/-- The bits of the words of a memory are independent of one another, and so are the words. -/
theorem loadWord?_updateWord (a : UInt32) (f : UInt32 → UInt32) (b : UInt32) :
    (m.updateWord a f).loadWord? b =
      if SameWord a b then some (f (m.wordAt b)) else m.loadWord? b := by
  rw [loadWord?, page?_updateWord]
  by_cases hp : pageOf a = pageOf b
  · rw [if_pos hp]
    simp only [Page.isInitialized_update, Page.get_update]
    by_cases hs : slotOf a = slotOf b
    · rw [if_pos (sameWord_iff.2 ⟨hp, hs⟩), if_pos (.inl hs), if_pos hs]
      rfl
    · rw [if_neg fun h => hs (sameWord_iff.1 h).2, if_neg hs, loadWord?]
      cases m.page? (pageOf b) with
      | none => simp [hs, Page.isInitialized_blank]
      | some page => simp [hs]
  · rw [if_neg hp, if_neg fun h => hp (sameWord_iff.1 h).1]
    rfl

theorem wordAt_updateWord (a : UInt32) (f : UInt32 → UInt32) (b : UInt32) :
    (m.updateWord a f).wordAt b = if SameWord a b then f (m.wordAt b) else m.wordAt b := by
  rw [wordAt, page?_updateWord]
  by_cases hp : pageOf a = pageOf b
  · rw [if_pos hp, Option.getD_some, Page.get_update]
    simp only [sameWord_iff, hp, true_and]
    rfl
  · rw [if_neg hp, if_neg fun h => hp (sameWord_iff.1 h).1]
    rfl

/-- A word is stored exactly if its address is that of a word, and nothing happens to the memory
otherwise. -/
theorem storeWord_eq (a value : UInt32) :
    storeWord a value m =
      if a.toNat % 4 = 0 then .ok () (m.updateWord a fun _ => value) else .error ⟨a⟩ m := by
  have hmod : a % 4 = 0 ↔ a.toNat % 4 = 0 := by
    rw [← UInt32.toNat_inj, UInt32.toNat_mod]
    rfl
  rw [storeWord, ite_not]
  by_cases ha : a.toNat % 4 = 0
  · rw [if_pos (hmod.2 ha), if_pos ha]
    rfl
  · rw [if_neg (mt hmod.1 ha), if_neg ha]
    rfl

/-- The byte at an address, if anything was written to its word. -/
def byte? (a : UInt32) : Option UInt8 :=
  (m.loadWord? a).map (byteOf · (a.toNat % 4))

end Words

end PagedMemory

/-! ## Flat memories -/

/-- The bytes of a memory, where they were written. -/
abbrev FlatMemory := UInt32 → Option UInt8

namespace FlatMemory

/-- Writes one byte. -/
def storeByte (M : FlatMemory) (a : UInt32) (b : UInt8) : FlatMemory :=
  Function.update M a (some b)

/-- Writes bytes from an address on; the addresses wrap around. -/
def storeBytes (M : FlatMemory) (a : UInt32) : ByteString → FlatMemory
  | [] => M
  | b :: bs => (M.storeByte a b).storeBytes (a + 1) bs

/-- Writes the bytes of a word, the least significant first. -/
def storeWord (M : FlatMemory) (a value : UInt32) : FlatMemory :=
  M.storeBytes a ((List.range 4).map (byteOf value))

/-- What is in memory after bytes were written, if they do not overtake themselves. -/
theorem storeBytes_apply (M : FlatMemory) (a x : UInt32) {bs : ByteString}
    (h : bs.length ≤ 2 ^ 32) : M.storeBytes a bs x = bs[(x - a).toNat]?.or (M x) := by
  induction bs generalizing M a with
  | nil => rfl
  | cons b bs ih =>
    rw [List.length_cons] at h
    have hx := x.toNat_lt
    have ha := a.toNat_lt
    have hsucc : (x - (a + 1)).toNat = (2 ^ 32 - 1 + (x - a).toNat) % 2 ^ 32 := by
      simp only [UInt32.toNat_sub, UInt32.toNat_add, UInt32.toNat_one]
      omega
    rw [storeBytes, ih _ _ (by omega), hsucc, storeByte]
    by_cases hxa : x = a
    · subst hxa
      -- the bytes that follow end before they come round to the first again
      rw [UInt32.sub_self, List.getElem?_eq_none (by simpa using by omega)]
      simp
    · have hpos : (x - a).toNat ≠ 0 := fun h0 => by
        rw [UInt32.toNat_sub] at h0
        exact hxa (UInt32.toNat_inj.1 (by omega))
      obtain ⟨n, hn⟩ := Nat.exists_eq_succ_of_ne_zero hpos
      have hlt := (x - a).toNat_lt
      rw [hn, show (2 ^ 32 - 1 + n.succ) % 2 ^ 32 = n by omega, List.getElem?_cons_succ,
        Function.update_of_ne hxa]

theorem storeWord_apply (M : FlatMemory) {a : UInt32} (value x : UInt32) (h : a.toNat % 4 = 0) :
    M.storeWord a value x = if SameWord a x then some (byteOf value (x.toNat % 4)) else M x := by
  have hx := x.toNat_lt
  have ha := a.toNat_lt
  have hsub := UInt32.toNat_sub x a
  rw [storeWord, storeBytes_apply _ _ _ (by simp)]
  split <;> rename_i hw <;> rw [SameWord] at hw
  · rw [List.getElem?_map, List.getElem?_range (by omega),
      show (x - a).toNat = x.toNat % 4 by omega]
    rfl
  · rw [List.getElem?_eq_none (by simp; omega), Option.none_or]

end FlatMemory

/-! ## Refinement -/

/-- A paged memory holds what a flat one holds: a word is written if one of its bytes is, and a byte
that is not is zero. -/
structure PagedMemory.Refines (m : PagedMemory) (M : FlatMemory) : Prop where
  written : ∀ a, (m.loadWord? a).isSome ↔ ∃ b, SameWord a b ∧ (M b).isSome
  byte : ∀ {a word}, m.loadWord? a = some word → byteOf word (a.toNat % 4) = (M a).getD 0
  /-- What can be read is what stands there, and zero stands where nothing can be read. -/
  wordAt : ∀ a, m.wordAt a = (m.loadWord? a).getD 0

namespace PagedMemory.Refines

variable {m : PagedMemory} {M : FlatMemory}

theorem empty : Refines {} fun _ => none where
  written a := by simp [loadWord?, page?]
  byte h := by simp [loadWord?, page?] at h
  wordAt a := by simp [PagedMemory.wordAt, loadWord?, page?, Page.blank, Vector.get]

theorem byte_getD (h : Refines m M) (a : UInt32) :
    byteOf ((m.loadWord? a).getD 0) (a.toNat % 4) = (M a).getD 0 := by
  cases hw : m.loadWord? a with
  | some word => exact h.byte hw
  | none =>
    have hnone : ¬(M a).isSome := fun ha => by
      have := (h.written a).2 ⟨a, rfl, ha⟩
      simp [hw] at this
    rw [Option.not_isSome_iff_eq_none.1 hnone]
    exact byteOf_zero _

theorem byte_wordByte (h : Refines m M) {a word : UInt32} (hw : m.loadWord? a = some word) {i : Nat}
    (hi : i < 4) : byteOf word i = (M (wordByte a i)).getD 0 := by
  have hbyte := h.byte (loadWord?_congr m (sameWord_wordByte a hi) ▸ hw)
  rwa [wordByte_mod a hi] at hbyte

/-- A byte of the flat memory can be read from the paged one. -/
theorem byte?_eq (h : Refines m M) {a : UInt32} {b : UInt8} (ha : M a = some b) :
    m.byte? a = some b := by
  obtain ⟨word, hw⟩ := Option.isSome_iff_exists.1 ((h.written a).2 ⟨a, rfl, by rw [ha]; rfl⟩)
  rw [byte?, hw, Option.map_some, h.byte hw, ha, Option.getD_some]

/-- A word of the paged memory is known by the bytes of the flat one. -/
theorem loadWord?_eq (h : Refines m M) {a word : UInt32}
    (hM : ∀ x, SameWord a x → M x = some (byteOf word (x.toNat % 4))) :
    m.loadWord? a = some word := by
  have ha := hM a rfl
  obtain ⟨v, hv⟩ := Option.isSome_iff_exists.1 ((h.written a).2 ⟨a, rfl, by rw [ha]; rfl⟩)
  rw [hv, Option.some_inj]
  refine eq_of_byteOf_eq fun i hi => ?_
  rw [h.byte_wordByte hv hi, hM _ (sameWord_wordByte a hi), wordByte_mod a hi, Option.getD_some]

/-- Changing a word of the one is writing bytes of the other, if the new word has the new bytes. -/
theorem updateWord_of_apply (h : Refines m M) {a : UInt32} {f : UInt32 → UInt32} {M' : FlatMemory}
    (hin : ∀ x, SameWord a x →
      byteOf (f ((m.loadWord? x).getD 0)) (x.toNat % 4) = (M' x).getD 0)
    (hsome : ∃ x, SameWord a x ∧ (M' x).isSome) (hout : ∀ x, ¬SameWord a x → M' x = M x) :
    Refines (m.updateWord a f) M' where
  written x := by
    rw [loadWord?_updateWord]
    split <;> rename_i hx
    · obtain ⟨y, hy, hsome⟩ := hsome
      exact ⟨fun _ => ⟨y, hx.symm.trans hy, hsome⟩, fun _ => rfl⟩
    · rw [h.written]
      refine exists_congr fun y => and_congr_right fun hxy => ?_
      rw [hout y fun hy => hx (hy.trans hxy.symm)]
  byte {x v} hv := by
    rw [loadWord?_updateWord] at hv
    split at hv <;> rename_i hx
    · obtain rfl := Option.some.inj hv
      rw [h.wordAt]
      exact hin x hx
    · rw [hout x hx]
      exact h.byte hv
  wordAt x := by
    rw [wordAt_updateWord, loadWord?_updateWord]
    split
    · rfl
    · exact h.wordAt x

theorem storeByte (h : Refines m M) (a : UInt32) (b : UInt8) :
    Refines (m.storeByte a b) (M.storeByte a b) := by
  refine h.updateWord_of_apply (fun x hx => ?_) ⟨a, rfl, by simp [FlatMemory.storeByte]⟩
    fun x hx => ?_
  · rw [byteOf_setByte _ (Nat.mod_lt _ (by decide)) (Nat.mod_lt _ (by decide)), h.byte_getD,
      FlatMemory.storeByte]
    split <;> rename_i hr
    · rw [hx.eq hr.symm, Function.update_self, Option.getD_some]
    · rw [Function.update_of_ne (by rintro rfl; exact hr rfl)]
  · exact Function.update_of_ne (by rintro rfl; exact hx rfl) ..

theorem storeBytes (h : Refines m M) (a : UInt32) (bs : ByteString) :
    Refines (m.storeBytes a bs) (M.storeBytes a bs) := by
  induction bs generalizing m M a with
  | nil => exact h
  | cons b bs ih => exact ih (h.storeByte a b) (a + 1)

/-- A word that is written whole. -/
theorem updateWord (h : Refines m M) {a : UInt32} (ha : a.toNat % 4 = 0) (value : UInt32) :
    Refines (m.updateWord a fun _ => value) (M.storeWord a value) := by
  refine h.updateWord_of_apply (fun x hx => ?_) ⟨a, rfl, ?_⟩ fun x hx => ?_
  · rw [FlatMemory.storeWord_apply _ _ _ ha, if_pos hx, Option.getD_some]
  · rw [FlatMemory.storeWord_apply _ _ _ ha, if_pos (sameWord_self a)]
    rfl
  · rw [FlatMemory.storeWord_apply _ _ _ ha, if_neg hx]

end PagedMemory.Refines

end MipsAssembler
