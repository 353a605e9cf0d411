import MipsAssembler.Proofs.Emission

/-!
# Where the bytes of a payload stand

`Payload.Holds` says which bytes a payload is in memory, without saying how they are made: numbers
stand at multiples of their step, least significant byte first, a text stands at the start, and all
other bytes are zero. `Payload.encode_layout` states that the encoding of a payload is of this form.

The encoding writes one number after the other into a buffer of zeros. A write changes the bytes of
its own number and no others (`writeCell?_inside`, `writeCell?_outside`), and the bytes of two
numbers are never the same (`cells_apart`), so that no write undoes another.
-/

namespace MipsAssembler

open ByteString

namespace Payload

/-! ## What is in memory -/

/-- `bs` holds numbers of `width` bytes, least significant byte first: the number `i` starts at the
offset `i * step`, and the bytes that belong to no number are zero. -/
structure HoldsNumbers (width step : Nat) (values : List Nat) (bs : ByteString) : Prop where
  number : ∀ i v, values[i]? = some v → ∀ j < width,
    bs[i * step + j]? = some (UInt8.ofNat (v / 256 ^ j))
  zero : ∀ k b, bs[k]? = some b → (∀ i < values.length, ∀ j < width, k ≠ i * step + j) → b = 0

/-- `bs` starts with a text and holds zeros after it. -/
structure HoldsText (chars bs : ByteString) : Prop where
  start : chars <+: bs
  zero : ∀ b ∈ bs.drop chars.length, b = 0

/-- What the bytes of a payload are. A number takes as many bytes as it is wide, or as its stride
says if that is more. -/
def Holds : Payload → ByteString → Prop
  | bytes values stride => HoldsNumbers 1 (max 1 stride.toNat) (values.map UInt8.toNat)
  | halves values stride => HoldsNumbers 2 (max 2 stride.toNat) (values.map UInt16.toNat)
  | words values stride => HoldsNumbers 4 (max 4 stride.toNat) (values.map UInt32.toNat)
  | text chars _ _ => HoldsText chars
  | space _ => HoldsText []

theorem toNat_cell (width stride : UInt32) :
    (cell width stride).toNat = max width.toNat stride.toNat := by
  rw [cell]
  split <;> rename_i h
  · exact (max_eq_right (UInt32.lt_iff_toNat_lt.1 h).le).symm
  · exact (max_eq_left (Nat.not_lt.1 fun hlt => h (UInt32.lt_iff_toNat_lt.2 hlt))).symm

/-! ## One number -/

theorem getElem?_littleEndian {width j : Nat} (hj : j < width) (n : Nat) :
    (littleEndian width n)[j]? = some (UInt8.ofNat (n / 256 ^ j)) := by
  induction width generalizing n j with
  | zero => omega
  | succ width ih =>
    cases j with
    | zero => rw [littleEndian, List.getElem?_cons_zero, pow_zero, Nat.div_one]
    | succ j =>
      rw [littleEndian, List.getElem?_cons_succ, ih (Nat.lt_of_succ_lt_succ hj), pow_succ',
        Nat.div_div_eq_div_mul]

/-- The buffer with the number `x.1` in the cell with the number `x.2`. -/
def writeCell? (width : Nat) (cell : UInt32) (buffer : ByteString) (x : Nat × Nat) :
    Option ByteString :=
  overwrite? buffer (UInt32.ofNat x.2 * cell).toNat (littleEndian width x.1)

theorem encodeCells?_eq (width : Nat) (cell total : UInt32) (values : List Nat) :
    encodeCells? width cell total values =
      values.zipIdx.foldlM (writeCell? width cell) (List.replicate total.toNat 0) := rfl

section Write

variable {width : Nat} {cell : UInt32} {buffer out : ByteString} {x : Nat × Nat}

/-- Where the offset of a cell does not wrap around, the bytes that are written stand between those
that were there. -/
theorem writeCell?_inv (hx : x.2 * cell.toNat < 2 ^ 32)
    (h : writeCell? width cell buffer x = some out) :
    (buffer.take (x.2 * cell.toNat)).length = x.2 * cell.toNat ∧
      out = buffer.take (x.2 * cell.toNat) ++ littleEndian width x.1 ++
        buffer.drop (x.2 * cell.toNat + width) := by
  rw [writeCell?, toNat_cells hx, overwrite?, length_littleEndian] at h
  split at h
  · rename_i hfits
    exact ⟨List.length_take_of_le (by omega), (Option.some.inj h).symm⟩
  · cases h

theorem writeCell?_inside (hx : x.2 * cell.toNat < 2 ^ 32)
    (h : writeCell? width cell buffer x = some out) {j : Nat} (hj : j < width) :
    out[x.2 * cell.toNat + j]? = some (UInt8.ofNat (x.1 / 256 ^ j)) := by
  obtain ⟨hstart, rfl⟩ := writeCell?_inv hx h
  rw [List.append_assoc, List.getElem?_append_right (by omega), hstart, Nat.add_sub_cancel_left,
    List.getElem?_append_left (by rwa [length_littleEndian]), getElem?_littleEndian hj]

theorem writeCell?_outside (hx : x.2 * cell.toNat < 2 ^ 32)
    (h : writeCell? width cell buffer x = some out) {k : Nat}
    (hk : ∀ j < width, k ≠ x.2 * cell.toNat + j) : out[k]? = buffer[k]? := by
  obtain ⟨hstart, rfl⟩ := writeCell?_inv hx h
  rcases Nat.lt_or_ge k (x.2 * cell.toNat) with hlt | hge
  · rw [List.append_assoc, List.getElem?_append_left (by omega), List.getElem?_take_of_lt hlt]
  · have hafter : x.2 * cell.toNat + width ≤ k := by
      by_contra hlt
      exact hk (k - x.2 * cell.toNat) (by omega) (by omega)
    rw [List.getElem?_append_right (by rw [List.length_append, hstart, length_littleEndian]; omega),
      List.length_append, hstart, length_littleEndian, List.getElem?_drop]
    congr 1
    omega

end Write

/-! ## All numbers -/

theorem cells_apart {width step i i' j j' : Nat} (hwidth : width ≤ step) (hne : i ≠ i')
    (hj : j < width) (hj' : j' < width) : i * step + j ≠ i' * step + j' := by
  have hindex : ∀ i j, j < width → (i * step + j) / step = i := by
    intro i j hj
    rw [Nat.add_comm, Nat.add_mul_div_right _ _ (by omega), Nat.div_eq_of_lt (by omega),
      Nat.zero_add]
  intro heq
  rw [← hindex i j hj, heq, hindex i' j' hj'] at hne
  exact hne rfl

section Run

variable {width : Nat} {cell : UInt32} {l : List (Nat × Nat)} {buffer out : ByteString}

/-- Bytes that belong to none of the numbers stay as they were. -/
theorem foldlM_writeCell?_outside (hl : ∀ x ∈ l, x.2 * cell.toNat < 2 ^ 32)
    (h : l.foldlM (writeCell? width cell) buffer = some out) {k : Nat}
    (hk : ∀ x ∈ l, ∀ j < width, k ≠ x.2 * cell.toNat + j) : out[k]? = buffer[k]? := by
  induction l generalizing buffer with
  | nil => rw [Option.some.inj h]
  | cons x l ih =>
    rw [List.forall_mem_cons] at hl hk
    obtain ⟨next, hnext, h⟩ := Option.bind_eq_some_iff.1 h
    rw [ih hl.2 h hk.2, writeCell?_outside hl.1 hnext hk.1]

/-- Every number stands in its cell at the end: what is written after it goes to other cells. -/
theorem foldlM_writeCell?_inside (hwidth : width ≤ cell.toNat)
    (hl : ∀ x ∈ l, x.2 * cell.toNat < 2 ^ 32) (hdistinct : l.Pairwise fun x y => x.2 ≠ y.2)
    (h : l.foldlM (writeCell? width cell) buffer = some out) {x : Nat × Nat} (hx : x ∈ l) {j : Nat}
    (hj : j < width) : out[x.2 * cell.toNat + j]? = some (UInt8.ofNat (x.1 / 256 ^ j)) := by
  induction l generalizing buffer with
  | nil => cases hx
  | cons y l ih =>
    rw [List.forall_mem_cons] at hl
    obtain ⟨hfirst, hdistinct⟩ := List.pairwise_cons.1 hdistinct
    obtain ⟨next, hnext, hrest⟩ := Option.bind_eq_some_iff.1 h
    rcases List.mem_cons.1 hx with rfl | hx
    · rw [foldlM_writeCell?_outside hl.2 hrest fun z hz j' hj' =>
        cells_apart hwidth (hfirst z hz) hj hj', writeCell?_inside hl.1 hnext hj]
    · exact ih hl.2 hdistinct hrest hx

end Run

/-- Numbers that are written into their cells stand there, with zeros between them. -/
theorem holdsNumbers_of_encodeCells? (width stride : UInt32) {total : UInt32} {values : List Nat}
    {bs : ByteString} (hbound : values.length * (cell width stride).toNat < 2 ^ 32)
    (h : encodeCells? width.toNat (cell width stride) total values = some bs) :
    HoldsNumbers width.toNat (max width.toNat stride.toNat) values bs := by
  rw [encodeCells?_eq] at h
  rw [← toNat_cell]
  have hindex : ∀ x ∈ values.zipIdx, x.2 < values.length := by
    intro x hx
    exact (List.mem_zipIdx hx).2.1.trans_eq (Nat.zero_add _)
  have hl : ∀ x ∈ values.zipIdx, x.2 * (cell width stride).toNat < 2 ^ 32 := by
    intro x hx
    exact (Nat.mul_le_mul_right _ (hindex x hx).le).trans_lt hbound
  have hdistinct : values.zipIdx.Pairwise fun x y => x.2 ≠ y.2 := by
    rw [← List.pairwise_map (f := Prod.snd), List.zipIdx_map_snd]
    exact (List.pairwise_lt_range' ..).imp Nat.ne_of_lt
  constructor
  · intro i v hv j hj
    exact foldlM_writeCell?_inside (width_le_cell width stride) hl hdistinct h
      (List.mk_mem_zipIdx_iff_getElem?.2 hv) hj
  · intro k b hb hk
    rw [foldlM_writeCell?_outside hl h fun x hx j hj => hk x.2 (hindex x hx) j hj] at hb
    exact List.eq_of_mem_replicate (List.mem_of_getElem? hb)

theorem holdsText_of_le {chars : ByteString} {size : Nat} (h : chars.length ≤ size) :
    HoldsText chars (chars.take size ++ List.replicate (size - chars.length) 0) := by
  rw [List.take_of_length_le h]
  refine ⟨List.prefix_append .., fun b hb => ?_⟩
  rw [List.drop_left] at hb
  exact List.eq_of_mem_replicate hb

/-- **Where the bytes of a payload stand.** A payload whose size, counted without bound, is a number
of 32 bits has an encoding. It has as many bytes as the size says, and holds the numbers or the text
of the payload at their places and zeros elsewhere. -/
theorem encode_layout {p : Payload} (h : p.fullSize < 2 ^ 32) :
    ∃ bs, p.encode? = some bs ∧ bs.length = p.size.toNat ∧ p.size.toNat = p.fullSize ∧
      p.Holds bs := by
  have hsize := toNat_size h
  obtain ⟨bs, hbs⟩ := Option.isSome_iff_exists.1 (isSome_encode? h)
  refine ⟨bs, hbs, length_encode? hbs, hsize, ?_⟩
  cases p with
  | bytes values stride =>
    exact holdsNumbers_of_encodeCells? 1 stride (by rwa [List.length_map]) hbs
  | halves values stride =>
    exact holdsNumbers_of_encodeCells? 2 stride (by rwa [List.length_map]) hbs
  | words values stride =>
    exact holdsNumbers_of_encodeCells? 4 stride (by rwa [List.length_map]) hbs
  | text chars terminated align =>
    obtain rfl := Option.some.inj hbs
    refine holdsText_of_le ?_
    rw [hsize]
    exact (Nat.le_add_right ..).trans (le_nextMultiple _ align)
  | space count =>
    obtain rfl := Option.some.inj hbs
    exact ⟨List.nil_prefix, fun b hb => List.eq_of_mem_replicate hb⟩

/-- Halfwords in cells of three bytes. -/
theorem encode_layout_strided :
    (halves [0x1234, 0xABCD] 3).fullSize < 2 ^ 32 ∧
      (halves [0x1234, 0xABCD] 3).encode? = some [0x34, 0x12, 0, 0xCD, 0xAB, 0] ∧
      (halves [0x1234, 0xABCD] 3).size.toNat = 6 ∧
      HoldsNumbers 2 3 [0x1234, 0xABCD] [0x34, 0x12, 0, 0xCD, 0xAB, 0] := by
  have hfits : (halves [0x1234, 0xABCD] 3).fullSize < 2 ^ 32 := by decide
  have hencode : (halves [0x1234, 0xABCD] 3).encode? = some [0x34, 0x12, 0, 0xCD, 0xAB, 0] := by
    decide
  obtain ⟨bs, hbs, hlength, -, hholds⟩ := encode_layout hfits
  obtain rfl := Option.some.inj (hencode.symm.trans hbs)
  exact ⟨hfits, hencode, hlength.symm, hholds⟩

end Payload

end MipsAssembler
