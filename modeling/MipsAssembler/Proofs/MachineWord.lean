import Mathlib.Algebra.Group.Nat.Defs
import MipsAssembler.Instruction.Encoding

/-!
# Machine words and instructions

`encode` and `decode` are inverse to each other. The three packings share one word of 32 bits, and
only the operation field tells them apart; the argument has three parts.

* The tables of operations: what a table can hold fits its field, and no code is both that of a jump
  and that of an immediate instruction (`Funct.code_lt`, `ImmediateOp.code_cases`,
  `JumpOp.code_cases`).
* The packings: a packed word is the sum of its shifted fields without a carry (`toNat_registerWord`
  and its companions), so that `field` reads each of them back.
* The two directions, `decode_encode` and `encode_decode`. They are put together in
  `encode_inverse_decode`.
-/

namespace MipsAssembler

/-! ## What the tables hold -/

namespace OpcodeTable

variable {t : OpcodeTable} {c : UInt8}

/-- A known code has an entry, from which its name comes. -/
theorem exists_mem_nameOf (field : ByteString) (h : (t.lookup c).isSome) :
    ∃ o, (c, o) ∈ t ∧ t.nameOf field c = o.mnemonic := by
  obtain ⟨o, ho⟩ := Option.isSome_iff_exists.1 h
  obtain ⟨before, after, hsplit, -⟩ := List.lookup_eq_some_iff.1 ho
  exact ⟨o, by simp [hsplit], by rw [nameOf, ho]⟩

theorem exists_mem (h : (t.lookup c).isSome) : ∃ e ∈ t, e.1 = c := by
  obtain ⟨o, hmem, -⟩ := exists_mem_nameOf [] h
  exact ⟨(c, o), hmem, rfl⟩

/-- The mnemonics of a table. -/
def mnemonics (t : OpcodeTable) : List ByteString := t.map (·.2.mnemonic)

theorem nameOf_mem (field : ByteString) (h : (t.lookup c).isSome) :
    t.nameOf field c ∈ t.mnemonics := by
  obtain ⟨o, hmem, hname⟩ := exists_mem_nameOf field h
  rw [hname]
  exact List.mem_map_of_mem (f := fun e : UInt8 × Operation => e.2.mnemonic) hmem

end OpcodeTable

theorem Funct.code_lt {f : Funct} (h : f.operation?.isSome) : f.code.toNat < 2 ^ 6 := by
  obtain ⟨e, he, hc⟩ := OpcodeTable.exists_mem h
  have : ∀ e ∈ Funct.table, e.1.toNat < 2 ^ 6 := by decide
  exact hc ▸ this e he

/-- The operation field of an immediate instruction of the machine is neither that of a register
instruction nor that of a jump. -/
theorem ImmediateOp.code_cases {op : ImmediateOp} (h : op.operation?.isSome) :
    op.isPseudo = true ∨
      (op.code.toNat < 2 ^ 6 ∧ op.code ≠ 0 ∧ (JumpOp.mk op.code).operation? = none) := by
  obtain ⟨e, he, hc⟩ := OpcodeTable.exists_mem h
  have : ∀ e ∈ ImmediateOp.table, (ImmediateOp.mk e.1).isPseudo = true ∨
      (e.1.toNat < 2 ^ 6 ∧ e.1 ≠ 0 ∧ (JumpOp.mk e.1).operation?.isNone = true) := by decide
  simpa [hc] using this e he

theorem JumpOp.code_cases {op : JumpOp} (h : op.operation?.isSome) :
    op.code.toNat < 2 ^ 6 ∧ op.code ≠ 0 := by
  obtain ⟨e, he, hc⟩ := OpcodeTable.exists_mem h
  have : ∀ e ∈ JumpOp.table, e.1.toNat < 2 ^ 6 ∧ e.1 ≠ 0 := by decide
  exact hc ▸ this e he

namespace Instruction

/-! ## The packings -/

/-- The registers that an instruction names. -/
def registers : Instruction → List Register
  | register _ rs rt rd _ => [rs, rt, rd]
  | immediate _ rs rt _ | immediateLabel _ rs rt _ => [rs, rt]
  | loadLiteral _ rt _ => [rt]
  | jump .. | jumpLabel .. => []

/-- All registers of the instruction are registers of the machine. -/
def InRange (inst : Instruction) : Prop := ∀ r ∈ inst.registers, r.code.toNat < 2 ^ 5

instance (inst : Instruction) : Decidable inst.InRange :=
  inferInstanceAs (Decidable (∀ r ∈ inst.registers, r.code.toNat < 2 ^ 5))

theorem field_eq (word : UInt32) (low width : Nat) :
    field word low width = word.toNat / 2 ^ low % 2 ^ width := by
  rw [field, Nat.shiftRight_eq_div_pow, Nat.one_shiftLeft]

theorem toNat_registerWord (f : Funct) (rs rt rd : Register) (shift : UInt8) :
    (registerWord f rs rt rd shift).toNat =
      rs.code.toNat % 2 ^ 5 * 2 ^ 21 + rt.code.toNat % 2 ^ 5 * 2 ^ 16 +
        rd.code.toNat % 2 ^ 5 * 2 ^ 11 + shift.toNat % 2 ^ 5 * 2 ^ 6 + f.code.toNat % 2 ^ 6 := by
  simp only [registerWord, UInt32.toNat_ofNat', Nat.shiftLeft_eq]
  omega

theorem toNat_immediateWord {op : ImmediateOp} (h : op.code.toNat < 2 ^ 6) (rs rt : Register)
    (value : UInt16) :
    (immediateWord op rs rt value).toNat =
      op.code.toNat * 2 ^ 26 + rs.code.toNat % 2 ^ 5 * 2 ^ 21 + rt.code.toNat % 2 ^ 5 * 2 ^ 16 +
        value.toNat := by
  have hv := value.toNat_lt
  simp only [immediateWord, UInt32.toNat_ofNat', Nat.shiftLeft_eq]
  omega

theorem toNat_jumpWord {op : JumpOp} (h : op.code.toNat < 2 ^ 6) (target : UInt32) :
    (jumpWord op target).toNat = op.code.toNat * 2 ^ 26 + target.toNat % 2 ^ 26 := by
  simp only [jumpWord, UInt32.toNat_ofNat', Nat.shiftLeft_eq]
  omega

/-! ## From instructions to words and back -/

theorem encode_register_eq_ok {f : Funct} {rs rt rd : Register} {shift : UInt8} {w : UInt32} :
    (register f rs rt rd shift).encode = .ok w ↔
      f.operation?.isSome ∧ shift.toNat < 2 ^ 5 ∧ registerWord f rs rt rd shift = w := by
  have hs : shift.toNat < 2 ^ 5 ↔ ¬ 0x1F < shift := by
    rw [UInt8.lt_iff_toNat_lt, show (0x1F : UInt8).toNat = 31 from rfl]
    omega
  rw [hs]
  cases hf : f.operation? <;> by_cases hw : 0x1F < shift <;> simp [encode, hf, hw]

theorem encode_immediate_eq_ok {op : ImmediateOp} {rs rt : Register} {value : UInt16} {w : UInt32} :
    (immediate op rs rt value).encode = .ok w ↔
      op.isPseudo = false ∧ op.operation?.isSome ∧ immediateWord op rs rt value = w := by
  cases hf : op.operation? <;> cases hp : op.isPseudo <;> simp [encode, hf, hp]

theorem encode_jump_eq_ok {op : JumpOp} {target w : UInt32} :
    (jump op target).encode = .ok w ↔
      op.operation?.isSome ∧ target.toNat < 2 ^ 26 ∧ jumpWord op target = w := by
  have ht : target.toNat < 2 ^ 26 ↔ ¬ 0x3FFFFFF < target := by
    rw [UInt32.lt_iff_toNat_lt, show (0x3FFFFFF : UInt32).toNat = 2 ^ 26 - 1 from rfl]
    omega
  rw [ht]
  cases hf : op.operation? <;> by_cases hw : 0x3FFFFFF < target <;> simp [encode, hf, hw]

/-- Only the instructions of the machine have a word. -/
theorem encode_cases {inst : Instruction} {w : UInt32} (h : inst.encode = .ok w) :
    (∃ f rs rt rd shift, inst = register f rs rt rd shift) ∨
      (∃ op rs rt value, inst = immediate op rs rt value) ∨ ∃ op target, inst = jump op target := by
  cases inst with
  | register f rs rt rd shift => exact .inl ⟨f, rs, rt, rd, shift, rfl⟩
  | immediate op rs rt value => exact .inr (.inl ⟨op, rs, rt, value, rfl⟩)
  | jump op target => exact .inr (.inr ⟨op, target, rfl⟩)
  | immediateLabel | jumpLabel | loadLiteral => simp [encode] at h

theorem decode_registerWord {f : Funct} {rs rt rd : Register} {shift : UInt8}
    (hf : f.operation?.isSome) (hr : (register f rs rt rd shift).InRange)
    (hs : shift.toNat < 2 ^ 5) :
    decode (registerWord f rs rt rd shift) = .ok (register f rs rt rd shift) := by
  have hw := toNat_registerWord f rs rt rd shift
  have hc := Funct.code_lt hf
  simp only [InRange, registers, List.mem_cons, List.not_mem_nil, or_false, forall_eq_or_imp,
    forall_eq] at hr
  obtain ⟨hrs, hrt, hrd⟩ := hr
  have h26 : field (registerWord f rs rt rd shift) 26 6 = 0 := by rw [field_eq, hw]; omega
  have h21 : field (registerWord f rs rt rd shift) 21 5 = rs.code.toNat := by rw [field_eq, hw]; omega
  have h16 : field (registerWord f rs rt rd shift) 16 5 = rt.code.toNat := by rw [field_eq, hw]; omega
  have h11 : field (registerWord f rs rt rd shift) 11 5 = rd.code.toNat := by rw [field_eq, hw]; omega
  have h6 : field (registerWord f rs rt rd shift) 6 5 = shift.toNat := by rw [field_eq, hw]; omega
  have h0 : field (registerWord f rs rt rd shift) 0 6 = f.code.toNat := by rw [field_eq, hw]; omega
  simp [decode, h26, h21, h16, h11, h6, h0, Option.isSome_iff_ne_none.1 hf]

theorem decode_immediateWord {op : ImmediateOp} {rs rt : Register} {value : UInt16}
    (hp : op.isPseudo = false) (ho : op.operation?.isSome)
    (hr : (immediate op rs rt value).InRange) :
    decode (immediateWord op rs rt value) = .ok (immediate op rs rt value) := by
  obtain hc | ⟨hc, hne, hj⟩ := ImmediateOp.code_cases ho
  · simp [hp] at hc
  have hw := toNat_immediateWord hc rs rt value
  have hv := value.toNat_lt
  simp only [InRange, registers, List.mem_cons, List.not_mem_nil, or_false, forall_eq_or_imp,
    forall_eq] at hr
  obtain ⟨hrs, hrt⟩ := hr
  have h26 : field (immediateWord op rs rt value) 26 6 = op.code.toNat := by rw [field_eq, hw]; omega
  have h21 : field (immediateWord op rs rt value) 21 5 = rs.code.toNat := by rw [field_eq, hw]; omega
  have h16 : field (immediateWord op rs rt value) 16 5 = rt.code.toNat := by rw [field_eq, hw]; omega
  have h0 : field (immediateWord op rs rt value) 0 16 = value.toNat := by rw [field_eq, hw]; omega
  simp [decode, h26, h21, h16, h0, hne, hj, Option.isSome_iff_ne_none.1 ho]

theorem decode_jumpWord {op : JumpOp} {target : UInt32} (ho : op.operation?.isSome)
    (ht : target.toNat < 2 ^ 26) : decode (jumpWord op target) = .ok (jump op target) := by
  obtain ⟨hc, hne⟩ := JumpOp.code_cases ho
  have hw := toNat_jumpWord hc target
  have h26 : field (jumpWord op target) 26 6 = op.code.toNat := by rw [field_eq, hw]; omega
  have h0 : field (jumpWord op target) 0 26 = target.toNat := by rw [field_eq, hw]; omega
  simp [decode, h26, h0, hne, ho]

/-- An instruction whose registers exist is read back from its word. -/
theorem decode_encode {inst : Instruction} {w : UInt32} (hr : inst.InRange)
    (h : inst.encode = .ok w) : decode w = .ok inst := by
  obtain ⟨f, rs, rt, rd, shift, rfl⟩ | ⟨op, rs, rt, value, rfl⟩ | ⟨op, target, rfl⟩ := encode_cases h
  · obtain ⟨hf, hs, rfl⟩ := encode_register_eq_ok.1 h
    exact decode_registerWord hf hr hs
  · obtain ⟨hp, ho, rfl⟩ := encode_immediate_eq_ok.1 h
    exact decode_immediateWord hp ho hr
  · obtain ⟨ho, ht, rfl⟩ := encode_jump_eq_ok.1 h
    exact decode_jumpWord ho ht

/-! ## From words to instructions and back -/

theorem field_lt (w : UInt32) (low width : Nat) : field w low width < 2 ^ width := by
  rw [field_eq]
  exact Nat.mod_lt _ (Nat.two_pow_pos width)

theorem toNat_byteField (w : UInt32) (low width : Nat) (h : width ≤ 8) :
    (UInt8.ofNat (field w low width)).toNat = field w low width := by
  rw [UInt8.toNat_ofNat', Nat.mod_eq_of_lt]
  exact Nat.lt_of_lt_of_le (field_lt w low width) (Nat.pow_le_pow_right (by decide) h)

/-- What is left of a word above its lowest `low` bits. -/
def above (w : UInt32) (low : Nat) : Nat := w.toNat / 2 ^ low

/-- The part of a word above a field, and the field, make up the part from the field on. -/
theorem above_eq (w : UInt32) {low width high : Nat} (h : low + width = high) :
    above w low = above w high * 2 ^ width + field w low width := by
  rw [above, above, field_eq, ← h, Nat.pow_add, ← Nat.div_div_eq_div_mul, Nat.div_add_mod']

theorem above_zero (w : UInt32) : above w 0 = w.toNat := by simp [above]

theorem above_top (w : UInt32) : above w 26 = field w 26 6 := by
  have := w.toNat_lt
  simp only [above, field_eq]
  omega

/-- A word is the sum of the fields of an immediate instruction. -/
theorem toNat_eq_immediateFields (w : UInt32) :
    w.toNat = field w 26 6 * 2 ^ 26 + field w 21 5 * 2 ^ 21 + field w 16 5 * 2 ^ 16 +
      field w 0 16 := by
  rw [← above_zero w, above_eq w (show 0 + 16 = 16 from rfl),
    above_eq w (show 16 + 5 = 21 from rfl), above_eq w (show 21 + 5 = 26 from rfl), above_top]
  omega

/-- A word is the sum of the fields of a register instruction. -/
theorem toNat_eq_registerFields (w : UInt32) :
    w.toNat = field w 26 6 * 2 ^ 26 + field w 21 5 * 2 ^ 21 + field w 16 5 * 2 ^ 16 +
      field w 11 5 * 2 ^ 11 + field w 6 5 * 2 ^ 6 + field w 0 6 := by
  rw [← above_zero w, above_eq w (show 0 + 6 = 6 from rfl), above_eq w (show 6 + 5 = 11 from rfl),
    above_eq w (show 11 + 5 = 16 from rfl), above_eq w (show 16 + 5 = 21 from rfl),
    above_eq w (show 21 + 5 = 26 from rfl), above_top]
  omega

/-- A word is the sum of the fields of a jump. -/
theorem toNat_eq_jumpFields (w : UInt32) :
    w.toNat = field w 26 6 * 2 ^ 26 + field w 0 26 := by
  rw [← above_zero w, above_eq w (show 0 + 26 = 26 from rfl), above_top]

/-- What a word can stand for, by its operation field. -/
theorem decode_cases {w : UInt32} {inst : Instruction} (h : decode w = .ok inst) :
    (field w 26 6 = 0 ∧ (Funct.mk (UInt8.ofNat (field w 0 6))).operation?.isSome ∧
      inst = register ⟨UInt8.ofNat (field w 0 6)⟩ ⟨UInt8.ofNat (field w 21 5)⟩
        ⟨UInt8.ofNat (field w 16 5)⟩ ⟨UInt8.ofNat (field w 11 5)⟩ (UInt8.ofNat (field w 6 5))) ∨
    ((JumpOp.mk (UInt8.ofNat (field w 26 6))).operation?.isSome ∧
      inst = jump ⟨UInt8.ofNat (field w 26 6)⟩ (UInt32.ofNat (field w 0 26))) ∨
    ((ImmediateOp.mk (UInt8.ofNat (field w 26 6))).operation?.isSome ∧
      inst = immediate ⟨UInt8.ofNat (field w 26 6)⟩ ⟨UInt8.ofNat (field w 21 5)⟩
        ⟨UInt8.ofNat (field w 16 5)⟩ (UInt16.ofNat (field w 0 16))) := by
  simp only [decode] at h
  split at h
  case isTrue h0 =>
    split at h
    · simp at h
    · rename_i hf
      refine .inl ⟨?_, by simpa [Option.isSome_iff_ne_none] using hf, by simpa using h.symm⟩
      rw [← toNat_byteField w 26 6 (by decide), h0]
      rfl
  case isFalse =>
    split at h
    case isTrue hj => exact .inr (.inl ⟨hj, by simpa using h.symm⟩)
    case isFalse =>
      split at h
      · simp at h
      · rename_i ho
        exact .inr (.inr ⟨by simpa [Option.isSome_iff_ne_none] using ho, by simpa using h.symm⟩)

/-- An instruction that is read from a word names registers of the machine. -/
theorem inRange_of_decode {w : UInt32} {inst : Instruction} (h : decode w = .ok inst) :
    inst.InRange := by
  have hr : ∀ low, (Register.mk (UInt8.ofNat (field w low 5))).code.toNat < 2 ^ 5 := fun low => by
    rw [toNat_byteField w low 5 (by decide)]
    exact field_lt w low 5
  obtain ⟨-, -, rfl⟩ | ⟨-, rfl⟩ | ⟨-, rfl⟩ := decode_cases h
  · simp only [InRange, registers, List.mem_cons, List.not_mem_nil, or_false, forall_eq_or_imp,
      forall_eq]
    exact ⟨hr 21, hr 16, hr 11⟩
  · simp [InRange, registers]
  · simp only [InRange, registers, List.mem_cons, List.not_mem_nil, or_false, forall_eq_or_imp,
      forall_eq]
    exact ⟨hr 21, hr 16⟩

/-- The word of an instruction that is read from a word is that word. -/
theorem encode_decode {w : UInt32} {inst : Instruction} (h : decode w = .ok inst) :
    inst.encode = .ok w := by
  have hop := toNat_byteField w 26 6 (by decide)
  have hrs := toNat_byteField w 21 5 (by decide)
  have hrt := toNat_byteField w 16 5 (by decide)
  obtain ⟨h0, hf, rfl⟩ | ⟨hj, rfl⟩ | ⟨ho, rfl⟩ := decode_cases h
  · have hrd := toNat_byteField w 11 5 (by decide)
    have hsh := toNat_byteField w 6 5 (by decide)
    have hfn := toNat_byteField w 0 6 (by decide)
    refine encode_register_eq_ok.2 ⟨hf, ?_, UInt32.toNat_inj.1 ?_⟩
    · rw [hsh]
      exact field_lt w 6 5
    · rw [toNat_registerWord, hrs, hrt, hrd, hsh, hfn, Nat.mod_eq_of_lt (field_lt w 21 5),
        Nat.mod_eq_of_lt (field_lt w 16 5), Nat.mod_eq_of_lt (field_lt w 11 5),
        Nat.mod_eq_of_lt (field_lt w 6 5), Nat.mod_eq_of_lt (field_lt w 0 6),
        toNat_eq_registerFields w, h0, Nat.zero_mul, Nat.zero_add]
  · have hc := (JumpOp.code_cases hj).1
    have ht : (UInt32.ofNat (field w 0 26)).toNat = field w 0 26 := by
      rw [UInt32.toNat_ofNat', Nat.mod_eq_of_lt]
      exact Nat.lt_of_lt_of_le (field_lt w 0 26) (by decide)
    refine encode_jump_eq_ok.2 ⟨hj, ?_, UInt32.toNat_inj.1 ?_⟩
    · rw [ht]
      exact field_lt w 0 26
    · rw [toNat_jumpWord hc, ht, hop, Nat.mod_eq_of_lt (field_lt w 0 26), toNat_eq_jumpFields w]
  · have hc : (ImmediateOp.mk (UInt8.ofNat (field w 26 6))).code.toNat < 2 ^ 6 := by
      rw [hop]
      exact field_lt w 26 6
    have hp : (ImmediateOp.mk (UInt8.ofNat (field w 26 6))).isPseudo = false := by
      simp only [ImmediateOp.isPseudo, UInt8.lt_iff_toNat_lt, decide_eq_false_iff_not]
      exact Nat.not_lt.2 (Nat.le_of_lt_succ hc)
    have hv : (UInt16.ofNat (field w 0 16)).toNat = field w 0 16 := by
      rw [UInt16.toNat_ofNat', Nat.mod_eq_of_lt (field_lt w 0 16)]
    refine encode_immediate_eq_ok.2 ⟨hp, ho, UInt32.toNat_inj.1 ?_⟩
    rw [toNat_immediateWord hc, hv, hop, hrs, hrt, Nat.mod_eq_of_lt (field_lt w 21 5),
      Nat.mod_eq_of_lt (field_lt w 16 5), toNat_eq_immediateFields w]

/-! ## Both directions -/

/-- The register of the machine whose code is in the low bits of a code. -/
def lowRegister (r : Register) : Register := ⟨UInt8.ofNat (r.code.toNat % 0x20)⟩

theorem toNat_lowRegister (r : Register) : (lowRegister r).code.toNat = r.code.toNat % 0x20 := by
  rw [lowRegister, UInt8.toNat_ofNat', Nat.mod_eq_of_lt]
  omega

/-- A word has an instruction of the machine, if it has any: the fields of registers take only the
low bits of their codes. -/
theorem exists_inRange_of_encode {inst : Instruction} {w : UInt32} (h : inst.encode = .ok w) :
    ∃ inst' : Instruction, inst'.InRange ∧ inst'.encode = .ok w := by
  have hlow : ∀ r : Register, (lowRegister r).code.toNat < 2 ^ 5 := fun r => by
    rw [toNat_lowRegister]
    exact Nat.mod_lt _ (by decide)
  obtain ⟨f, rs, rt, rd, shift, rfl⟩ | ⟨op, rs, rt, value, rfl⟩ | ⟨op, target, rfl⟩ := encode_cases h
  · obtain ⟨hf, hs, rfl⟩ := encode_register_eq_ok.1 h
    refine ⟨register f (lowRegister rs) (lowRegister rt) (lowRegister rd) shift, ?_,
      encode_register_eq_ok.2 ⟨hf, hs, ?_⟩⟩
    · simp only [InRange, registers, List.forall_mem_cons, hlow, true_and]
      exact nofun
    · simp only [registerWord, toNat_lowRegister, Nat.mod_mod]
  · obtain ⟨hp, ho, rfl⟩ := encode_immediate_eq_ok.1 h
    refine ⟨immediate op (lowRegister rs) (lowRegister rt) value, ?_,
      encode_immediate_eq_ok.2 ⟨hp, ho, ?_⟩⟩
    · simp only [InRange, registers, List.forall_mem_cons, hlow, true_and]
      exact nofun
    · simp only [immediateWord, toNat_lowRegister, Nat.mod_mod]
  · exact ⟨jump op target, by simp [InRange, registers], h⟩

/-- **Machine words and instructions of the machine correspond one to one.** An instruction is read
back from its word, a word that can be read is the word of what was read, so that exactly the words
of instructions can be read, and no two instructions of the machine have the same word. -/
theorem encode_inverse_decode :
    (∀ (inst : Instruction) (w : UInt32), inst.InRange → inst.encode = .ok w →
      decode w = .ok inst) ∧
    (∀ (w : UInt32) (inst : Instruction), decode w = .ok inst →
      inst.InRange ∧ inst.encode = .ok w) ∧
    (∀ w : UInt32, (∃ inst, decode w = .ok inst) ↔ ∃ inst : Instruction, inst.encode = .ok w) ∧
    (∀ (inst inst' : Instruction) (w : UInt32), inst.InRange → inst'.InRange →
      inst.encode = .ok w → inst'.encode = .ok w → inst = inst') := by
  refine ⟨fun inst w hr h => decode_encode hr h,
    fun w inst h => ⟨inRange_of_decode h, encode_decode h⟩, fun w => ⟨?_, ?_⟩, ?_⟩
  · rintro ⟨inst, h⟩
    exact ⟨inst, encode_decode h⟩
  · rintro ⟨inst, h⟩
    obtain ⟨inst', hr, h'⟩ := exists_inRange_of_encode h
    exact ⟨inst', decode_encode hr h'⟩
  · intro inst inst' w hr hr' h h'
    have : Except.ok inst = (Except.ok inst' : Except EncodingError Instruction) :=
      (decode_encode hr h).symm.trans (decode_encode hr' h')
    exact Except.ok.inj this

/-- The correspondence at `sw $ra, -4($sp)`. -/
theorem encode_inverse_decode_store :
    (immediate ⟨0x2B⟩ ⟨29⟩ ⟨31⟩ 0xFFFC).InRange ∧
      (immediate ⟨0x2B⟩ ⟨29⟩ ⟨31⟩ 0xFFFC).encode = .ok 0xAFBFFFFC ∧
      decode 0xAFBFFFFC = .ok (immediate ⟨0x2B⟩ ⟨29⟩ ⟨31⟩ 0xFFFC) :=
  ⟨by decide, rfl, encode_inverse_decode.1 _ _ (by decide) rfl⟩

end Instruction

end MipsAssembler
