import MipsAssembler.Proofs.Alignment
import MipsAssembler.Proofs.Image
import MipsAssembler.Proofs.LabelMap
import MipsAssembler.Report.Listing

/-!
# What resolves can be loaded

A program that is read from a source and resolved has an image (`Program.resolve_emits`): nothing
that can go wrong when it is loaded does.

* Its instructions have machine words. What a source can write is known (`Instruction.Known`),
  and it stays so when pseudo instructions are replaced and labels get their values
  (`Known.of_mem_expand`, `Linked.known`).
* They lie at words, because text segments start at words and hold nothing but words.
* Its payloads have encodings if their sizes are numbers of 32 bits (`Payload.isSome_encode?`).
-/

namespace MipsAssembler

open ByteString Outcome

/-! ## Machine words -/

namespace Instruction

/-- What takes the place of a known instruction is known. -/
theorem Known.of_mem_expand {inst i : Instruction} (h : inst.Known) (hi : i ∈ inst.expand) :
    i.Known := by
  have hupper : ImmediateOp.loadUpper.operation?.isSome = true := by decide
  have hlower : ImmediateOp.orImmediate.operation?.isSome = true := by decide
  cases inst with
  | immediate op rs rt value =>
    rw [expand] at hi
    split at hi
    · rcases List.mem_pair.1 hi with rfl | rfl
      · exact hupper
      · exact hlower
    · exact List.mem_singleton.1 hi ▸ h
  | immediateLabel op rs rt label =>
    rw [expand] at hi
    split at hi
    · rcases List.mem_pair.1 hi with rfl | rfl
      · exact hupper
      · exact hlower
    · exact List.mem_singleton.1 hi ▸ h
  | loadLiteral op rt value =>
    rcases List.mem_pair.1 hi with rfl | rfl
    · exact hupper
    · exact hlower
  | register | jump | jumpLabel => exact List.mem_singleton.1 hi ▸ h

/-- A known instruction stays known when its label gets its value. -/
theorem Linked.known {t : SymbolTable} {source : UInt32} {inst inst' : Instruction}
    (h : Linked t source inst inst') (hk : inst.Known) : inst'.Known := by
  cases h with
  | branch | value => exact hk
  | jump _ reaches => exact ⟨hk, reaches.lt⟩
  | unlabelled => exact hk

/-- A known instruction of the machine has a word. -/
theorem Known.exists_encode {inst : Instruction} (h : inst.Known) (hr : inst.isResolved = true) :
    ∃ word, inst.encode = .ok word := by
  cases inst with
  | register f rs rt rd shift => exact ⟨_, encode_register_eq_ok.2 ⟨h.1, h.2, rfl⟩⟩
  | immediate op rs rt value =>
    exact ⟨_, encode_immediate_eq_ok.2 ⟨by simpa [isResolved] using hr, h, rfl⟩⟩
  | jump op target => exact ⟨_, encode_jump_eq_ok.2 ⟨h.1, h.2, rfl⟩⟩
  | immediateLabel | jumpLabel | loadLiteral => simp [isResolved] at hr

end Instruction

namespace Program

variable {w : Windows} {p q : Program} {t : SymbolTable} {m : Mode}

/-- Every instruction of a resolved program was written in the source, up to expansion and the values
of labels. -/
theorem resolve_text_inv (h : p.resolve w = .ok (q, t)) {s : Segment Instruction} (hs : s ∈ q.text m)
    {e : Entry Instruction} (he : e ∈ s.entries) :
    ∃ s₀ ∈ p.text m, ∃ e₀ ∈ s₀.entries, ∃ i ∈ e₀.item.expand, ∃ a,
      Instruction.Linked t a i e.item := by
  obtain ⟨-, settled, hset, hl⟩ := Program.resolve_eq_ok.1 h
  obtain ⟨s₁, hs₁, hseg⟩ :=
    exists_of_mem_right (Program.link_linked hl (Program.settle_addressed hset).1 m) hs
  obtain ⟨e₁, he₁, hlink⟩ := exists_of_mem_right hseg.entries he
  obtain ⟨t₀, t₁, hm⟩ := (Program.settle_inv hset).1 m
  obtain ⟨s₂, hs₂, hentries⟩ := exists_of_mem_right (settle_located hm) hs₁
  obtain ⟨e₂, he₂, a, rfl⟩ := exists_of_mem_right hentries he₁
  obtain ⟨s₀, hs₀, e₀, he₀, hmem⟩ := Program.exists_of_mem_expand hs₂ he₂
  obtain ⟨b, -, hitem⟩ := hlink.item
  exact ⟨s₀, hs₀, e₀, he₀, e₂.item, hmem, b, hitem⟩

/-- Every payload of a resolved program was written in the source. -/
theorem resolve_data_inv (h : p.resolve w = .ok (q, t)) {s : Segment Payload} (hs : s ∈ q.data m)
    {e : Entry Payload} (he : e ∈ s.entries) :
    ∃ s₀ ∈ p.data m, ∃ e₀ ∈ s₀.entries, e.item = e₀.item := by
  obtain ⟨-, settled, hset, hl⟩ := Program.resolve_eq_ok.1 h
  rw [(Program.link_eq_ok hl).2 m] at hs
  obtain ⟨t₀, t₁, hm⟩ := (Program.settle_inv hset).2 m
  obtain ⟨s₂, hs₂, hentries⟩ := exists_of_mem_right (settle_located hm) hs
  obtain ⟨e₂, he₂, a, rfl⟩ := exists_of_mem_right hentries he
  have hdata : p.expand.data m = p.data m := p.segments_expand_data m
  exact ⟨s₂, hdata ▸ hs₂, e₂, he₂, rfl⟩

/-- Every instruction of a program from a source has its machine word in the end. -/
theorem Written.exists_encode (hw : p.Written) (h : p.resolve w = .ok (q, t))
    {s : Segment Instruction} (hs : s ∈ q.text m) {e : Entry Instruction} (he : e ∈ s.entries) :
    ∃ word, e.item.encode = .ok word := by
  obtain ⟨s₀, hs₀, e₀, he₀, i, hi, a, hlinked⟩ := resolve_text_inv h hs he
  have hknown := ((hw.text m s₀ hs₀).items e₀ he₀).known.of_mem_expand hi
  exact (hlinked.known hknown).exists_encode
    (hlinked.isResolved (Instruction.isMachine_of_mem_expand hi))

end Program

/-! ## Payloads -/

namespace Payload

/-- The next multiple of `align` from `n` on, without bound. -/
def nextMultiple (n : Nat) (align : UInt32) : Nat :=
  if align ≤ 1 ∨ n % align.toNat = 0 then n else n + align.toNat - n % align.toNat

/-- The number of bytes in memory, without bound. -/
def fullSize : Payload → Nat
  | bytes values stride => values.length * (cell 1 stride).toNat
  | halves values stride => values.length * (cell 2 stride).toNat
  | words values stride => values.length * (cell 4 stride).toNat
  | text chars terminated align =>
    nextMultiple (chars.length + if terminated then 1 else 0) align
  | space count => count.toNat

theorem le_nextMultiple (n : Nat) (align : UInt32) : n ≤ nextMultiple n align := by
  rw [nextMultiple]
  split
  · exact Nat.le_refl n
  · rename_i h
    have hpos : 0 < align.toNat := by
      rw [not_or, UInt32.le_iff_toNat_le] at h
      exact Nat.zero_lt_one.trans (Nat.not_le.1 h.1)
    have := Nat.mod_lt n hpos
    omega

theorem toNat_roundUp {n align : UInt32} (h : nextMultiple n.toNat align < 2 ^ 32) :
    (roundUp n align).toNat = nextMultiple n.toNat align := by
  have hmod : n % align = 0 ↔ n.toNat % align.toNat = 0 := by
    rw [← UInt32.toNat_inj, UInt32.toNat_mod, UInt32.toNat_zero]
  rw [nextMultiple] at h ⊢
  rw [roundUp]
  by_cases hone : align ≤ 1
  · simp [hone]
  by_cases hzero : n.toNat % align.toNat = 0
  · simp [hone, hmod, hzero]
  simp only [hone, hmod, hzero, or_self, if_false] at h ⊢
  have hle : n.toNat % align.toNat ≤ n.toNat := Nat.mod_le ..
  have hlt := n.toNat_lt
  rw [UInt32.toNat_sub, UInt32.toNat_add, UInt32.toNat_mod]
  omega

theorem toNat_cells {n : Nat} {cell : UInt32} (h : n * cell.toNat < 2 ^ 32) :
    (UInt32.ofNat n * cell).toNat = n * cell.toNat := by
  rw [UInt32.toNat_mul, UInt32.toNat_ofNat', Nat.mod_mul_mod, Nat.mod_eq_of_lt h]

/-- The size of a payload is the full one if that is a number of 32 bits. -/
theorem toNat_size {p : Payload} (h : p.fullSize < 2 ^ 32) : p.size.toNat = p.fullSize := by
  cases p with
  | bytes | halves | words => exact toNat_cells h
  | space count => rfl
  | text chars terminated align =>
    have hn := (le_nextMultiple (chars.length + if terminated then 1 else 0) align).trans_lt h
    have hlength : (UInt32.ofNat chars.length + if terminated then 1 else 0).toNat =
        chars.length + if terminated then 1 else 0 := by
      cases terminated <;> simp only [Bool.false_eq_true, if_true, if_false] at hn ⊢ <;>
        simp only [UInt32.toNat_add, UInt32.toNat_ofNat', UInt32.reduceToNat] <;> omega
    rw [fullSize, ← hlength] at h ⊢
    exact toNat_roundUp h

theorem width_le_cell (width stride : UInt32) : width.toNat ≤ (cell width stride).toNat := by
  rw [cell]
  split <;> rename_i h
  · exact (UInt32.lt_iff_toNat_lt.1 h).le
  · exact Nat.le_refl _

theorem length_littleEndian (width n : Nat) : (littleEndian width n).length = width := by
  induction width generalizing n with
  | zero => rfl
  | succ width ih => rw [littleEndian, List.length_cons, ih]

/-- A number whose cell ends inside the buffer can be written there. -/
theorem exists_overwrite? {width n i : Nat} {cell : UInt32} {buffer : ByteString}
    (hwidth : width ≤ cell.toNat) (hcell : (i + 1) * cell.toNat ≤ buffer.length)
    (hbuffer : buffer.length < 2 ^ 32) :
    ∃ out, overwrite? buffer (UInt32.ofNat i * cell).toNat (littleEndian width n) = some out := by
  rw [Nat.succ_mul] at hcell
  have hstart : (UInt32.ofNat i * cell).toNat = i * cell.toNat := toNat_cells (by omega)
  have hfits : i * cell.toNat + (littleEndian width n).length ≤ buffer.length := by
    rw [length_littleEndian]
    omega
  rw [hstart, overwrite?, if_pos hfits]
  exact ⟨_, rfl⟩

/-- Numbers whose cells fit into the size have an encoding. -/
theorem isSome_encodeCells? {width : Nat} {cell total : UInt32} {values : List Nat}
    (hwidth : width ≤ cell.toNat) (htotal : total.toNat = values.length * cell.toNat) :
    (encodeCells? width cell total values).isSome := by
  have hlt := total.toNat_lt
  -- writing one number keeps the length of the buffer, so the cells of the others still fit
  have hrun (l : List (Nat × Nat)) (hl : ∀ x ∈ l, x.2 < values.length) (buffer : ByteString)
      (hbuffer : buffer.length = total.toNat) :
      (l.foldlM (fun buffer x =>
        overwrite? buffer (UInt32.ofNat x.2 * cell).toNat (littleEndian width x.1)) buffer).isSome := by
    induction l generalizing buffer with
    | nil => rfl
    | cons x l ih =>
      rw [List.forall_mem_cons] at hl
      have hcell : (x.2 + 1) * cell.toNat ≤ buffer.length := by
        rw [hbuffer, htotal]
        exact Nat.mul_le_mul_right _ hl.1
      obtain ⟨out, hout⟩ := exists_overwrite? (n := x.1) hwidth hcell (hbuffer ▸ hlt)
      rw [List.foldlM_cons, hout]
      exact ih hl.2 out ((length_overwrite? hout).trans hbuffer)
  refine hrun _ (fun x hx => ?_) _ (List.length_replicate ..)
  exact (List.mem_zipIdx hx).2.1.trans_eq (Nat.zero_add _)

/-- A payload whose size is a number of 32 bits has an encoding. -/
theorem isSome_encode? {p : Payload} (h : p.fullSize < 2 ^ 32) : p.encode?.isSome := by
  have hsize := toNat_size h
  cases p with
  | bytes values stride =>
    exact isSome_encodeCells? (width_le_cell 1 stride) (by rw [hsize, List.length_map, fullSize])
  | halves values stride =>
    exact isSome_encodeCells? (width_le_cell 2 stride) (by rw [hsize, List.length_map, fullSize])
  | words values stride =>
    exact isSome_encodeCells? (width_le_cell 4 stride) (by rw [hsize, List.length_map, fullSize])
  | text | space => rfl

end Payload

/-! ## Words of instructions -/

theorem totalSize_text (es : List (Entry Instruction)) : totalSize es = 4 * es.length := by
  induction es with
  | nil => rfl
  | cons e es ih =>
    rw [totalSize_cons, ih, List.length_cons, show (byteSize e.item).toNat = 4 from rfl]
    omega

/-- A text segment with entries takes space. -/
theorem segmentSpace_text_ne_zero {m : Mode} {s : Segment Instruction} (hne : s.entries ≠ [])
    (hfits : totalSize s.entries < 2 ^ 32) : segmentSpace (.text m) s ≠ 0 := by
  have hpos := List.length_pos_of_ne_nil hne
  have hsize := toNat_segmentSize hfits
  rw [totalSize_text] at hsize
  have hmod : s.size % 4 = 0 := by
    rw [← UInt32.toNat_inj, UInt32.toNat_mod, hsize]
    exact Nat.mul_mod_right ..
  have hspace : segmentSpace (.text m) s = s.size := by
    rw [segmentSpace, show segmentAlign (.text m) = 4 from rfl, roundUp, if_neg (by decide),
      if_pos hmod]
  intro hzero
  rw [hspace, ← UInt32.toNat_inj, hsize, UInt32.toNat_zero] at hzero
  omega

/-- A text segment with entries starts at a word if its window does. -/
theorem Program.resolve_text_aligned {w : Windows} {p q : Program} {t : SymbolTable} {m : Mode}
    (h : p.resolve w = .ok (q, t)) (hwindow : (w.region (.text m)).start % 4 = 0)
    {s : Segment Instruction} (hs : s ∈ q.text m) (hne : s.entries ≠ []) :
    4 ∣ s.startAddress.toNat := by
  obtain ⟨-, placed, hsettles, hplaces⟩ := Program.resolve_settles h
  obtain ⟨s₁, hs₁, hsame⟩ := exists_of_mem_right (hplaces (.text m)) hs
  obtain ⟨s₀, hs₀, rfl⟩ := List.mem_map.1 hs₁
  have hentries : s₀.entries ≠ [] := by
    intro hnil
    have hplaces := hsame.places
    simp only [Segment.assign, hnil, assignFrom, List.map_nil, List.map_eq_nil_iff] at hplaces
    exact hne hplaces
  have hfits : s₀.startAddress.toNat + totalSize s₀.entries ≤ (w.region (.text m)).stop.toNat :=
    hsettles.entries_fit hs₀ hentries
  have hstop := (w.region (.text m)).stop.toNat_lt
  have haligned : 4 ∣ s₀.startAddress.toNat :=
    placeSegments_aligned rfl (four_dvd_toNat.2 hwindow) (hsettles.place (.text m)) hs₀
      (segmentSpace_text_ne_zero hentries (by omega))
  rwa [Segment.startAddress, hsame.start]

/-- An entry of a mapped segment, with the one it comes from and the entries before. -/
theorem Segment.Mapped.exists_of_mem {α : Type} [Sized α] {t : SymbolTable} {s s' : Segment α}
    (h : Segment.Mapped t s s') {e' : Entry α} (he' : e' ∈ s'.entries) :
    ∃ before e after a, s.entries = before ++ e :: after ∧
      s'.entries[before.length]? = some e' ∧ addressOf? e'.place = some a ∧ a ≠ 0 ∧
      a.toNat = s'.startAddress.toNat + totalSize before := by
  obtain ⟨i, hi, rfl⟩ := List.mem_iff_getElem.1 he'
  have hi' : i < s.entries.length := h.length ▸ hi
  have hsplit : s.entries = s.entries.take i ++ s.entries[i] :: s.entries.drop (i + 1) := by
    rw [← List.drop_eq_getElem_cons hi', List.take_append_drop]
  obtain ⟨e, a, hget, -, ha, hne, hnat, -⟩ := h.entry _ _ _ hsplit
  have hlength : (s.entries.take i).length = i := by
    rw [List.length_take, Nat.min_eq_left hi'.le]
  rw [hlength, List.getElem?_eq_getElem hi] at hget
  obtain rfl := Option.some.inj hget
  exact ⟨_, _, _, a, hsplit, by rw [hlength, List.getElem?_eq_getElem hi], ha, hne, hnat⟩

/-- Every instruction of a program from a source lies at a word other than zero. -/
theorem Program.Written.exists_word_address {w : Windows} {p q : Program} {t : SymbolTable} {m : Mode}
    (hw : p.Written) (h : p.resolve w = .ok (q, t)) (hwindow : (w.region (.text m)).start % 4 = 0)
    {s : Segment Instruction} (hs : s ∈ q.text m) {e : Entry Instruction} (he : e ∈ s.entries) :
    ∃ a, addressOf? e.place = some a ∧ a ≠ 0 ∧ a % 4 = 0 := by
  obtain ⟨s₀, -, hmapped⟩ := exists_of_mem_right (hw.mapped h (.text m)) hs
  obtain ⟨before, _, _, a, -, -, ha, hne, hnat⟩ := hmapped.exists_of_mem he
  have hstart := Program.resolve_text_aligned h hwindow hs (List.ne_nil_of_mem he)
  have hsize : totalSize before = 4 * before.length := totalSize_text before
  refine ⟨a, ha, hne, ?_⟩
  rw [← four_dvd_toNat, hnat, hsize]
  exact Nat.dvd_add hstart (Nat.dvd_mul_right ..)

/-! ## Loading -/

theorem exists_storeInstruction {e : Entry Instruction} {a word : UInt32}
    (ha : addressOf? e.place = some a) (haligned : a % 4 = 0) (hword : e.item.encode = .ok word)
    (memory : PagedMemory) : ∃ memory', storeInstruction memory e = .ok memory' := by
  have hmod : a.toNat % 4 = 0 := Nat.mod_eq_zero_of_dvd (four_dvd_toNat.2 haligned)
  refine ⟨memory.updateWord a fun _ => word, ?_⟩
  simp only [storeInstruction, ha, hword, PagedMemory.storeWord_eq, if_pos hmod]

theorem exists_storePayload {e : Entry Payload} {a : UInt32} (ha : addressOf? e.place = some a)
    (hbytes : e.item.encode?.isSome) (memory : PagedMemory) :
    ∃ memory', storePayload memory e = .ok memory' := by
  obtain ⟨bs, hbs⟩ := Option.isSome_iff_exists.1 hbytes
  rw [storePayload]
  split
  · exact ⟨memory, rfl⟩
  · simp [ha, hbs]

/-- A program can be loaded if all its entries have their places and their bytes. -/
theorem Program.exists_load {p : Program}
    (htext : ∀ m, ∀ s ∈ p.text m, ∀ e ∈ s.entries, ∃ a word, addressOf? e.place = some a ∧
      a % 4 = 0 ∧ e.item.encode = .ok word)
    (hdata : ∀ m, ∀ s ∈ p.data m, ∀ e ∈ s.entries, ∃ a, addressOf? e.place = some a ∧
      e.item.encode?.isSome) : ∃ image, p.load = .ok image := by
  have htext' : ∀ memory, ∀ e ∈ p.allText.flatMap (·.entries), ∃ memory',
      storeInstruction memory e = .ok memory' := by
    intro memory e he
    obtain ⟨s, hs, he⟩ := List.mem_flatMap.1 he
    obtain ⟨m, hs⟩ : ∃ m, s ∈ p.text m := (List.mem_append.1 hs).elim (⟨.user, ·⟩) (⟨.kernel, ·⟩)
    obtain ⟨a, word, ha, haligned, hword⟩ := htext m s hs e he
    exact exists_storeInstruction ha haligned hword memory
  have hdata' : ∀ memory, ∀ e ∈ p.allData.flatMap (·.entries), ∃ memory',
      storePayload memory e = .ok memory' := by
    intro memory e he
    obtain ⟨s, hs, he⟩ := List.mem_flatMap.1 he
    obtain ⟨m, hs⟩ : ∃ m, s ∈ p.data m := (List.mem_append.1 hs).elim (⟨.user, ·⟩) (⟨.kernel, ·⟩)
    obtain ⟨a, ha, hbytes⟩ := hdata m s hs e he
    exact exists_storePayload ha hbytes memory
  obtain ⟨text, ht⟩ := exists_foldlM_eq_ok htext' {}
  obtain ⟨image, hi⟩ := exists_foldlM_eq_ok hdata' text
  exact ⟨image, bind_eq_ok.2 ⟨text, ht, hi⟩⟩

/-! ## Listings -/

namespace Listing

/-- The machine word of an instruction, or another text if it has none. -/
def wordOr (unknown : ByteString) (inst : Instruction) : ByteString :=
  match inst.encode with
  | .ok word => hex 8 word.toNat
  | .error _ => unknown

/-- The lines of the segments of a category, with the text `shown` for each instruction where its
machine word would be. -/
def categoryLinesWith (shown : Instruction → ByteString) (p : Program) : Category → List ByteString
  | .text m => (p.text m).flatMap (segmentLines (.text m) fun e =>
    "  " ++ address e.place ++ "  " ++ shown e.item ++ "  " ++ e.item.render)
  | .data m => categoryLines p (.data m)

/-- The listing of a program, with the text `shown` in the place of machine words. -/
def renderWith (shown : Instruction → ByteString) (p : Program) (width : Int) : ByteString :=
  (Category.all.flatMap (categoryLinesWith shown p)).flatMap (fit width)

theorem render_eq_renderWith (p : Program) (width : Int) :
    render p width = renderWith (wordOr "????????") p width := by
  have hlines : categoryLines p = categoryLinesWith (wordOr "????????") p := by
    funext k
    cases k <;> rfl
  rw [render, renderWith, hlines]

theorem renderWith_congr {shown shown' : Instruction → ByteString} {p : Program}
    (h : ∀ m, ∀ s ∈ p.text m, ∀ e ∈ s.entries, shown e.item = shown' e.item) (width : Int) :
    renderWith shown p width = renderWith shown' p width := by
  have hlines : ∀ k, categoryLinesWith shown p k = categoryLinesWith shown' p k := by
    intro k
    cases k with
    | data m => rfl
    | text m =>
      refine List.flatMap_congr fun s hs => ?_
      refine congrArg (List.cons _) (List.flatMap_congr fun e he => ?_)
      simp only [entryLines, h m s hs e he]
  rw [renderWith, renderWith, funext hlines]

end Listing

/-- **What resolves can be loaded.** If the windows for text start at words and the sizes of the data
are numbers of 32 bits, a program that is read from a source and resolved has an image. Its
instructions lie at words, other than zero, and have machine words; no segment starts at zero; and
its listing does not depend on what is shown for an instruction without a machine word. -/
theorem Program.resolve_emits {src : ByteString} {w : Windows} {p q : Program} {t : SymbolTable}
    (hwords : ∀ m, (w.region (.text m)).start % 4 = 0) (hparse : Program.parse src = .ok p)
    (hsizes : ∀ m, ∀ s ∈ p.data m, ∀ e ∈ s.entries, e.item.fullSize < 2 ^ 32)
    (h : p.resolve w = .ok (q, t)) :
    (∃ image, q.load = .ok image) ∧
      (∀ m, ∀ s ∈ q.text m, ∀ e ∈ s.entries, ∃ a word, addressOf? e.place = some a ∧ a ≠ 0 ∧
        a % 4 = 0 ∧ e.item.encode = .ok word) ∧
      (∀ k, ∀ s ∈ q.segments k, ∃ a, addressOf? s.start = some a ∧ a ≠ 0) ∧
      ∀ width unknown, Listing.render q width = Listing.renderWith (Listing.wordOr unknown) q width := by
  have hwritten := Program.parse_written hparse
  have htext : ∀ m, ∀ s ∈ q.text m, ∀ e ∈ s.entries, ∃ a word, addressOf? e.place = some a ∧
      a ≠ 0 ∧ a % 4 = 0 ∧ e.item.encode = .ok word := by
    intro m s hs e he
    obtain ⟨word, hword⟩ := hwritten.exists_encode h hs he
    obtain ⟨a, ha, hne, haligned⟩ := hwritten.exists_word_address h (hwords m) hs he
    exact ⟨a, word, ha, hne, haligned, hword⟩
  have hdata : ∀ m, ∀ s ∈ q.data m, ∀ e ∈ s.entries, ∃ a, addressOf? e.place = some a ∧
      e.item.encode?.isSome := by
    intro m s hs e he
    obtain ⟨s₀, hs₀, e₀, he₀, hitem⟩ := Program.resolve_data_inv h hs he
    obtain ⟨a, ha⟩ := Program.resolve_data_addressed h m s hs e he
    exact ⟨a, ha, hitem ▸ Payload.isSome_encode? (hsizes m s₀ hs₀ e₀ he₀)⟩
  refine ⟨?_, htext, fun k s hs => ?_, fun width unknown => ?_⟩
  · refine Program.exists_load (fun m s hs e he => ?_) hdata
    obtain ⟨a, word, ha, -, haligned, hword⟩ := htext m s hs e he
    exact ⟨a, word, ha, haligned, hword⟩
  · obtain ⟨s₀, -, hmap⟩ := exists_of_mem_right (hwritten.mapped h k) hs
    obtain ⟨a, ha, hne, -⟩ := hmap.start
    exact ⟨a, ha, hne⟩
  · rw [Listing.render_eq_renderWith]
    refine Listing.renderWith_congr (fun m s hs e he => ?_) width
    obtain ⟨a, word, -, -, -, hword⟩ := htext m s hs e he
    simp only [Listing.wordOr, hword]

/-- A source with all kinds of operands and payloads, and a second text segment at a given start. -/
def emittedSource : ByteString :=
  ".text\nmain: li $t0, 0x12345678\nla $a0, name\nsll $t0, $t0, 31\nbeq $t0, $a0, main\n" ++
    ".text 0x0A000100\nj main\n.ktext\nlw $t1, 4($a0)\n" ++
    ".data\n.byte 1\nname: .asciiz \"ab\"\n.kdata\n.space 3\n.align 2\n.half 1, 2\n"

/-- The shift comes after the two words of each pseudo instruction. -/
theorem Program.resolve_emits_segments :
    ∃ p q t image, (∀ m, (Windows.region {} (.text m)).start % 4 = 0) ∧
      Program.parse emittedSource = .ok p ∧
      (∀ m, ∀ s ∈ p.data m, ∀ e ∈ s.entries, e.item.fullSize < 2 ^ 32) ∧
      p.resolve {} = .ok (q, t) ∧ q.load = .ok image ∧
      image.loadWord? 0x0A000010 = some 0x000847C0 ∧
      (∀ m, ∀ s ∈ q.text m, ∀ e ∈ s.entries, ∃ a word, addressOf? e.place = some a ∧ a ≠ 0 ∧
        a % 4 = 0 ∧ e.item.encode = .ok word) ∧
      (∀ k, ∀ s ∈ q.segments k, ∃ a, addressOf? s.start = some a ∧ a ≠ 0) ∧
      ∀ width unknown, Listing.render q width = Listing.renderWith (Listing.wordOr unknown) q width := by
  have hvalues : ((Program.parse emittedSource).toOption.bind fun p =>
      (p.resolve {}).toOption.map fun r =>
        ([Mode.user, .kernel].all fun m => (p.data m).all fun s => s.entries.all fun e =>
            e.item.fullSize < 2 ^ 32,
          r.1.load.toOption.bind (PagedMemory.loadWord? · 0x0A000010))) =
      some (true, some 0x000847C0) := by decide +kernel
  have hwords : ∀ m, (Windows.region {} (.text m)).start % 4 = 0 := by
    intro m
    cases m <;> decide
  obtain ⟨p, hp, hvalues⟩ := Option.bind_eq_some_iff.1 hvalues
  obtain ⟨⟨q, t⟩, hq, hvalues⟩ := Option.map_eq_some_iff.1 hvalues
  obtain ⟨hall, hload⟩ := Prod.mk.inj hvalues
  have hsizes : ∀ m, ∀ s ∈ p.data m, ∀ e ∈ s.entries, e.item.fullSize < 2 ^ 32 := by
    intro m
    simp only [List.all_eq_true, decide_eq_true_eq] at hall
    exact hall m (by cases m <;> decide)
  have hparse := eq_ok_of_toOption hp
  have hresolve := eq_ok_of_toOption hq
  obtain ⟨⟨image, himage⟩, hrest⟩ := Program.resolve_emits hwords hparse hsizes hresolve
  rw [himage] at hload
  exact ⟨p, q, t, image, hwords, hparse, hsizes, hresolve, himage, hload, hrest⟩

end MipsAssembler
