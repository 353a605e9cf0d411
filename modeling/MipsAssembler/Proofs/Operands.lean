import MipsAssembler.Proofs.Numerals
import MipsAssembler.Proofs.Written

/-!
# Operands that read back

The operands of an instruction are written slot by slot, and read slot by slot. Two things are known
of operands that were read into the slots of a format, whatever the texts were:

* their registers exist, and what has no slot is zero (`Operands.InSlots`);
* a label is one that the slot takes, and so is a literal (`Operand.ReadIn`).

Operands of this kind are read again from what their slots show (`Operands.write`), if the text of the
literal or label is read as it (`readSlots_write`). Nothing depends on the order of the slots there,
only on that each part of an instruction is set by the slots that show it. That an instruction is
written in the order in which it is read is a fact of its own, about the formats
(`registerOperands_eq`, `immediateOperands_eq`).
-/

namespace MipsAssembler

open ByteString Outcome

/-! ## Registers -/

theorem Register.code_lt_of_parse {text : ByteString} {r : Register} (h : parse text = .ok r) :
    r.code.toNat < 32 := by
  have hname : ∀ {t : ByteString} {r : Register}, ofName? t = some r → r.code.toNat < 32 := by
    intro t r h
    rw [ofName?] at h
    split at h
    · obtain rfl := Option.some.inj h
      decide
    · obtain ⟨i, hi, rfl⟩ := Option.map_eq_some_iff.1 h
      obtain ⟨hlt, -⟩ := List.idxOf?_eq_some_iff.1 hi
      have hlt : i < 32 := hlt
      rw [UInt8.toNat_ofNat']
      omega
  have hnumber : ∀ {n : Int} {r : Register}, ofNumber? n = some r → r.code.toNat < 32 := by
    intro n r h
    obtain ⟨hn, h⟩ := Option.ite_none_right_eq_some.1 h
    obtain rfl := Option.some.inj h
    rw [UInt8.toNat_ofNat']
    omega
  rw [parse] at h
  split at h
  · split at h
    · split at h
      · rename_i hr
        obtain rfl := Except.ok.inj h
        exact hname hr
      · split at h
        · cases h
        · split at h
          · rename_i hr
            obtain rfl := Except.ok.inj h
            exact hnumber hr
          · cases h
    · cases h
  · cases h

theorem Register.parse_name {r : Register} (h : r.code.toNat < 32) :
    parse r.name = .ok r ∧ IsWord r.name := by
  have hall : ∀ n < 32, (parse (mk (UInt8.ofNat n)).name).toOption = some (mk (UInt8.ofNat n)) ∧
      (mk (UInt8.ofNat n)).name ≠ [] ∧ (mk (UInt8.ofNat n)).name.all isWordByte = true := by
    decide +kernel
  obtain ⟨hparse, hne, hbytes⟩ := hall _ h
  rw [UInt8.ofNat_toNat] at hparse hne hbytes
  exact ⟨eq_ok_of_toOption hparse, hne, List.all_eq_true.1 hbytes⟩

theorem Instruction.readRegister_name {r : Register} (h : r.code.toNat < 32) :
    readRegister r.name = .ok r := by
  rw [readRegister, (Register.parse_name h).1]

theorem Instruction.code_lt_of_readRegister {text : ByteString} {r : Register}
    (h : readRegister text = .ok r) : r.code.toNat < 32 := by
  rw [readRegister] at h
  split at h
  · rename_i hr
    obtain rfl := Except.ok.inj h
    exact Register.code_lt_of_parse hr
  · cases h

/-! ## Labels and numerals -/

/-- Is `b` part of a label or a numeral? -/
def isAtomByte (b : UInt8) : Bool :=
  isNameStart b || isDigit b || b == ascii '@' || b == ascii '-'

/-- A label or a numeral. -/
structure IsAtom (s : ByteString) : Prop where
  ne_nil : s ≠ []
  bytes : ∀ b ∈ s, isAtomByte b = true

section Atoms

variable {s : ByteString} {b : UInt8}

theorem atomByte_facts : isAtomByte b = true → isWordByte b = true ∧ b ≠ ascii '(' :=
  forall_byte (P := fun b => isAtomByte b = true → isWordByte b = true ∧ b ≠ ascii '(')
    (by decide +kernel) b

theorem numeralByte_facts : isNumeralByte b = true →
    isAtomByte b = true ∧ b ≠ ascii '@' ∧ (isLetter b = false → isNameStart b = false) :=
  forall_byte (P := fun b => isNumeralByte b = true →
    isAtomByte b = true ∧ b ≠ ascii '@' ∧ (isLetter b = false → isNameStart b = false))
    (by decide +kernel) b

theorem IsAtom.isWord (h : IsAtom s) : IsWord s where
  ne_nil := h.ne_nil
  bytes b hb := (atomByte_facts (h.bytes b hb)).1

theorem stripEnding_append (ending s : ByteString) :
    ∃ t, s = stripEnding ending s ++ t ∧ (t = ending ∨ t = []) := by
  rw [stripEnding]
  split
  · rename_i hsuffix
    obtain ⟨s, rfl⟩ := List.isSuffixOf_iff_suffix.1 hsuffix
    exact ⟨ending, by simp, .inl rfl⟩
  · exact ⟨[], by simp, .inr rfl⟩

/-- An operand is the name of a label with endings for the halves of its address. -/
theorem wholeName_append (s : ByteString) :
    ∃ t, s = wholeName s ++ t ∧ ∀ b ∈ t, isAtomByte b = true := by
  have hending : ∀ t : ByteString, t = upperEnding ∨ t = lowerEnding ∨ t = [] →
      t.all isAtomByte = true := by
    rintro t (rfl | rfl | rfl) <;> rfl
  obtain ⟨t, ht, htcases⟩ := stripEnding_append upperEnding s
  obtain ⟨u, hu, hucases⟩ := stripEnding_append lowerEnding (stripEnding upperEnding s)
  refine ⟨u ++ t, by rw [wholeName, ← List.append_assoc, ← hu, ← ht], fun b hb => ?_⟩
  rcases List.mem_append.1 hb with hb | hb
  · exact List.all_eq_true.1 (hending u (.inr hucases)) b hb
  · exact List.all_eq_true.1 (hending t (htcases.imp_right .inr)) b hb

theorem isAtom_of_isSymbol (h : isSymbol s = true) : IsAtom s := by
  obtain ⟨t, hs, ht⟩ := wholeName_append s
  rw [isSymbol] at h
  cases hname : wholeName s with
  | nil => simp [hname, isName] at h
  | cons b rest =>
    rw [hname, isName, Bool.and_eq_true, List.all_eq_true] at h
    rw [hname] at hs
    refine ⟨by rw [hs]; simp, fun c hc => ?_⟩
    rw [hs, List.cons_append, List.mem_cons, List.mem_append] at hc
    rcases hc with rfl | hc | hc
    · simp [isAtomByte, h.1]
    · have hc := h.2 c hc
      rw [Bool.or_eq_true] at hc
      simp only [isAtomByte, Bool.or_eq_true]
      exact .inl (.inl hc)
    · exact ht c hc

namespace ByteString.IsNumeral

theorem isAtom (h : IsNumeral s) : IsAtom s where
  ne_nil := h.ne_nil
  bytes b hb := (numeralByte_facts (h.bytes b hb)).1

theorem isSymbol_eq_false (h : IsNumeral s) : isSymbol s = false := by
  obtain ⟨t, hs, -⟩ := wholeName_append s
  rw [isSymbol]
  cases hname : wholeName s with
  | nil => rfl
  | cons b rest =>
    rw [hname, List.cons_append] at hs
    have hb := numeralByte_facts (h.bytes b (by rw [hs]; simp))
    rw [isName, hb.2.2 (h.first b (by rw [hs]; rfl)), Bool.false_and]

theorem isHalf_eq_false (h : IsNumeral s) : isHalf s = false :=
  isHalf_of_notMem fun hs => (numeralByte_facts (h.bytes _ hs)).2.1 rfl

end ByteString.IsNumeral

end Atoms

/-! ## Slots -/

/-- Does the slot show a literal or a label? -/
def Slot.hasOperand : Slot → Bool
  | rd | rs | rt | shift => false
  | immediate | label | memory | value | target => true

/-- A format shows one literal or label at most. -/
theorem Format.operandSlot_unique (f : Format) {s s' : Slot} (hs : s ∈ f.slots) (hs' : s' ∈ f.slots)
    (h : s.hasOperand = true) (h' : s'.hasOperand = true) : s = s' := by
  have hall : ∀ s ∈ f.slots, ∀ s' ∈ f.slots,
      s.hasOperand = true → s'.hasOperand = true → s = s' := by
    cases f <;> decide
  exact hall s hs s' hs' h h'

namespace Instruction

/-- The registers exist, the shift amount fits, and what none of the slots shows is zero. -/
structure Operands.InSlots (slots : List Slot) (o : Operands) : Prop where
  rs : o.rs.code.toNat < 32 ∧ (¬(.rs ∈ slots ∨ .memory ∈ slots) → o.rs = .zero)
  rt : o.rt.code.toNat < 32 ∧ (.rt ∉ slots → o.rt = .zero)
  rd : o.rd.code.toNat < 32 ∧ (.rd ∉ slots → o.rd = .zero)
  shift : o.shift.toNat < 32 ∧ (.shift ∉ slots → o.shift = 0)

/-- Does the slot of an instruction take the operand? Halves of addresses are not loaded as a whole,
and an address is not a literal. -/
def Operand.Suits (mnemonic : ByteString) (slot : Slot) : Operand → Prop
  | .symbol name => isSymbol name = true ∧ (slot = .value → isHalf name = false)
  | .number _ => slot = .value → mnemonic ≠ "la"

/-- The operand is one that some slot takes, or none of them shows one. -/
def Operand.ReadIn (mnemonic : ByteString) (slots : List Slot) (v : Operand) : Prop :=
  (∃ s ∈ slots, s.hasOperand = true ∧ v.Suits mnemonic s) ∨
    v = .number 0 ∧ ∀ s ∈ slots, s.hasOperand = false

section Reading

variable {mnemonic text : ByteString} {slots : List Slot} {o o' : Operands} {slot : Slot}
  {v : Operand}

theorem Operands.InSlots.append (h : o.InSlots slots) (slot : Slot) :
    o.InSlots (slots ++ [slot]) where
  rs := ⟨h.rs.1, fun hs =>
    h.rs.2 (mt (Or.imp (List.mem_append_left _) (List.mem_append_left _)) hs)⟩
  rt := ⟨h.rt.1, fun hs => h.rt.2 (mt (List.mem_append_left _) hs)⟩
  rd := ⟨h.rd.1, fun hs => h.rd.2 (mt (List.mem_append_left _) hs)⟩
  shift := ⟨h.shift.1, fun hs => h.shift.2 (mt (List.mem_append_left _) hs)⟩

theorem suits_of_readOperand {low high : Int} (h : readOperand low high text = .ok v)
    (hslot : slot ≠ .value) : v.Suits mnemonic slot := by
  rw [readOperand] at h
  split at h
  · rename_i hsymbol
    obtain rfl := Except.ok.inj h
    exact ⟨hsymbol, fun hvalue => absurd hvalue hslot⟩
  · obtain ⟨n, -, rfl⟩ := map_eq_ok.1 h
    exact fun hvalue => absurd hvalue hslot

theorem suits_of_readValue (h : readValue mnemonic text = .ok v) : v.Suits mnemonic .value := by
  rw [readValue] at h
  split at h
  · cases h
  rename_i hhalf
  split at h
  · rename_i hsymbol
    obtain rfl := Except.ok.inj h
    exact ⟨hsymbol, fun _ => by simpa using hhalf⟩
  rename_i hsymbol
  split at h
  · cases h
  rename_i hla
  rw [readOperand, if_neg hsymbol] at h
  obtain ⟨n, -, rfl⟩ := map_eq_ok.1 h
  exact fun _ => hla

theorem suits_of_readTarget (h : readTarget text = .ok v) : v.Suits mnemonic .target := by
  rw [readTarget] at h
  obtain ⟨operand, hread, h⟩ := bind_eq_ok.1 h
  have hsuits := @suits_of_readOperand mnemonic _ .target _ _ _ hread (by decide)
  cases operand with
  | number n =>
    obtain rfl := pure_eq_ok.1 h
    exact fun hvalue => absurd hvalue (by decide)
  | symbol name =>
    obtain rfl := pure_eq_ok.1 h
    exact hsuits

theorem readAddress_inv {base : Register} (h : readAddress text = .ok (base, v)) :
    base.code.toNat < 32 ∧ v.Suits mnemonic .memory := by
  rw [readAddress] at h
  dsimp only at h
  split at h
  · split at h
    · obtain ⟨base', hbase, h⟩ := bind_eq_ok.1 h
      obtain ⟨operand, hread, h⟩ := bind_eq_ok.1 h
      obtain ⟨rfl, rfl⟩ := Prod.mk.inj (pure_eq_ok.1 h)
      exact ⟨code_lt_of_readRegister hbase, suits_of_readOperand hread (by decide)⟩
    · cases h
  · obtain ⟨operand, hread, h⟩ := map_eq_ok.1 h
    obtain ⟨rfl, rfl⟩ := Prod.mk.inj h
    exact ⟨by decide, suits_of_readOperand hread (by decide)⟩

/-- A slot sets what it shows and nothing else. -/
theorem readSlot_inSlots (h : readSlot mnemonic o slot text = .ok o') (ho : o.InSlots slots) :
    o'.InSlots (slots ++ [slot]) := by
  have hmem : ∀ s : Slot, s ∈ slots ++ [s] := fun s => by simp
  have ho := ho.append slot
  cases slot with
  | rd =>
    obtain ⟨r, hr, rfl⟩ := map_eq_ok.1 h
    exact { ho with rd := ⟨code_lt_of_readRegister hr, fun hs => absurd (hmem _) hs⟩ }
  | rs =>
    obtain ⟨r, hr, rfl⟩ := map_eq_ok.1 h
    exact { ho with rs := ⟨code_lt_of_readRegister hr, fun hs => absurd (.inl (hmem _)) hs⟩ }
  | rt =>
    obtain ⟨r, hr, rfl⟩ := map_eq_ok.1 h
    exact { ho with rt := ⟨code_lt_of_readRegister hr, fun hs => absurd (hmem _) hs⟩ }
  | shift =>
    have hlt := readSlot_shift h ho.shift.1
    simp only [readSlot] at h
    split at h
    · obtain rfl := Except.ok.inj h
      exact { ho with shift := ⟨hlt, fun hs => absurd (hmem _) hs⟩ }
    · cases h
  | memory =>
    obtain ⟨⟨base, v⟩, hread, rfl⟩ := map_eq_ok.1 h
    have hbase := (@readAddress_inv mnemonic _ _ _ hread).1
    exact { ho with rs := ⟨hbase, fun hs => absurd (.inr (hmem _)) hs⟩ }
  | immediate | label | value | target =>
    obtain ⟨v, -, rfl⟩ := map_eq_ok.1 h
    exact { ho with }

theorem readSlot_readIn (h : readSlot mnemonic o slot text = .ok o')
    (ho : o.operand.ReadIn mnemonic slots) : o'.operand.ReadIn mnemonic (slots ++ [slot]) := by
  have hset : slot.hasOperand = true → o'.operand.Suits mnemonic slot →
      o'.operand.ReadIn mnemonic (slots ++ [slot]) :=
    fun hslot hsuits => .inl ⟨slot, by simp, hslot, hsuits⟩
  -- a slot for a register leaves the operand as it is
  have hkept : slot.hasOperand = false → o'.operand = o.operand →
      o'.operand.ReadIn mnemonic (slots ++ [slot]) := by
    intro hslot heq
    rw [heq]
    rcases ho with ⟨s, hs, hsuits⟩ | ⟨hzero, hnone⟩
    · exact .inl ⟨s, List.mem_append_left _ hs, hsuits⟩
    · refine .inr ⟨hzero, fun s hs => ?_⟩
      rcases List.mem_append.1 hs with hs | hs
      · exact hnone s hs
      · rwa [List.mem_singleton.1 hs]
  cases slot with
  | rd | rs | rt =>
    obtain ⟨r, -, rfl⟩ := map_eq_ok.1 h
    exact hkept rfl rfl
  | shift =>
    simp only [readSlot] at h
    split at h
    · obtain rfl := Except.ok.inj h
      exact hkept rfl rfl
    · cases h
  | immediate | label =>
    obtain ⟨v, hread, rfl⟩ := map_eq_ok.1 h
    exact hset rfl (suits_of_readOperand hread (by decide))
  | memory =>
    obtain ⟨⟨base, v⟩, hread, rfl⟩ := map_eq_ok.1 h
    exact hset rfl (readAddress_inv hread).2
  | value =>
    obtain ⟨v, hread, rfl⟩ := map_eq_ok.1 h
    exact hset rfl (suits_of_readValue hread)
  | target =>
    obtain ⟨v, hread, rfl⟩ := map_eq_ok.1 h
    exact hset rfl (suits_of_readTarget hread)

/-- What is known of operands that were read. -/
theorem readSlots_inv {fields : List ByteString} (h : readSlots mnemonic slots fields = .ok o) :
    o.InSlots slots ∧ o.operand.ReadIn mnemonic slots := by
  rw [readSlots] at h
  split at h
  · rename_i hlength
    have hrun := @foldlM_run _ _ _ _
      (fun done (o : Operands) =>
        o.InSlots (done.map Prod.fst) ∧ o.operand.ReadIn mnemonic (done.map Prod.fst))
      (slots.zip fields) [] _ _ ?_ h ?_
    · rwa [List.nil_append, List.map_fst_zip (by omega)] at hrun
    · rintro done o ⟨slot, text⟩ o' - ⟨hregisters, hoperand⟩ hread
      rw [List.map_append]
      exact ⟨readSlot_inSlots hread hregisters, readSlot_readIn hread hoperand⟩
    · have hzero : Register.zero.code.toNat < 32 := by decide
      exact ⟨⟨⟨hzero, fun _ => rfl⟩, ⟨hzero, fun _ => rfl⟩, ⟨hzero, fun _ => rfl⟩,
        ⟨by decide, fun _ => rfl⟩⟩, .inr ⟨rfl, by simp⟩⟩
  · split at h <;> cases h

end Reading

/-! ## Writing -/

/-- How a slot reads a literal or a label. -/
def readerOf (mnemonic : ByteString) : Slot → ByteString → Except SourceError Operand
  | .value => readValue mnemonic
  | .target => readTarget
  | _ => readImmediate

/-- What a slot shows, with a text for the literal or label. -/
def Operands.write (o : Operands) (text : ByteString) : Slot → ByteString
  | .rd => o.rd.name
  | .rs => o.rs.name
  | .rt => o.rt.name
  | .shift => natural o.shift.toNat
  | .memory => text ++ "(" ++ o.rs.name ++ ")"
  | .immediate | .label | .value | .target => text

/-- What the slot shows is taken from `o`, all else from `o'`. -/
def Operands.copy (o o' : Operands) : Slot → Operands
  | .rd => { o' with rd := o.rd }
  | .rs => { o' with rs := o.rs }
  | .rt => { o' with rt := o.rt }
  | .shift => { o' with shift := o.shift }
  | .memory => { o' with rs := o.rs, operand := o.operand }
  | .immediate | .label | .value | .target => { o' with operand := o.operand }

/-- What is copied slot by slot is what some slot shows. -/
theorem Operands.foldl_copy (o o' : Operands) (slots : List Slot) :
    slots.foldl o.copy o' =
      { rs := if .rs ∈ slots ∨ .memory ∈ slots then o.rs else o'.rs
        rt := if .rt ∈ slots then o.rt else o'.rt
        rd := if .rd ∈ slots then o.rd else o'.rd
        shift := if .shift ∈ slots then o.shift else o'.shift
        operand := if slots.any Slot.hasOperand then o.operand else o'.operand } := by
  induction slots generalizing o' with
  | nil => simp
  | cons slot slots ih =>
    rw [List.foldl_cons, ih]
    cases slot <;> simp [copy, Slot.hasOperand]

/-- `text` stands for the literal or label, in every slot that shows it. -/
structure Operands.Spelled (mnemonic : ByteString) (slots : List Slot) (o : Operands)
    (text : ByteString) : Prop where
  inSlots : o.InSlots slots
  readIn : o.operand.ReadIn mnemonic slots
  isAtom : ∀ s ∈ slots, s.hasOperand = true → IsAtom text
  reads : ∀ s ∈ slots, s.hasOperand = true → readerOf mnemonic s text = .ok o.operand

section Writing

variable {mnemonic text : ByteString} {slots : List Slot} {o : Operands}

/-- An offset and a base are read back. -/
theorem readAddress_write {r : Register} {v : Operand} (htext : IsAtom text)
    (hr : r.code.toNat < 32) (hread : readImmediate text = .ok v) :
    readAddress (text ++ "(" ++ r.name ++ ")") = .ok (r, v) := by
  have hopen : ∀ b ∈ text, (b == ascii '(') = false := fun b hb =>
    beq_eq_false_iff_ne.2 (atomByte_facts (htext.bytes b hb)).2
  have hcut : cutAt (· == ascii '(') (text ++ "(" ++ r.name ++ ")") = (text, r.name ++ ")") := by
    rw [List.append_assoc, List.append_assoc]
    exact cutAt_append hopen rfl _
  have hcontains : (text ++ "(" ++ r.name ++ ")" : ByteString).contains (ascii '(') = true := by
    simp [show ofString "(" = [ascii '('] from rfl]
  have hlast : (r.name ++ ")" : ByteString).getLast? = some (ascii ')') := List.getLast?_concat
  have hbase : (r.name ++ ")" : ByteString).dropLast = r.name := List.dropLast_concat
  rw [readAddress, if_pos hcontains]
  simp only [hcut, hlast, if_true, hbase, readRegister_name hr, if_neg htext.ne_nil]
  exact bind_eq_ok.2 ⟨r, rfl, bind_eq_ok.2 ⟨v, hread, rfl⟩⟩

/-- A slot that is written is read back. -/
theorem readSlot_write (h : o.Spelled mnemonic slots text) {slot : Slot} (hslot : slot ∈ slots)
    (o' : Operands) :
    readSlot mnemonic o' slot (o.write text slot) = .ok (o.copy o' slot) := by
  cases slot with
  | rd =>
    rw [Operands.write, readSlot, readRegister_name h.inSlots.rd.1]
    rfl
  | rs =>
    rw [Operands.write, readSlot, readRegister_name h.inSlots.rs.1]
    rfl
  | rt =>
    rw [Operands.write, readSlot, readRegister_name h.inSlots.rt.1]
    rfl
  | shift =>
    have hlt := h.inSlots.shift.1
    have hread : readLiteral 0 31 (natural o.shift.toNat) = .ok (o.shift.toNat : Int) :=
      readLiteral_decimal (v := o.shift.toNat) (by omega) (by omega) (by decide) (by decide)
    simp only [readSlot, Operands.write, hread, byte_ofInt_toNat, Operands.copy]
  | memory =>
    exact map_eq_ok.2 ⟨(o.rs, o.operand), readAddress_write (h.isAtom _ hslot rfl) h.inSlots.rs.1
      (h.reads _ hslot rfl), rfl⟩
  | immediate | label | value | target => exact map_eq_ok.2 ⟨o.operand, h.reads _ hslot rfl, rfl⟩

/-- The text in a slot is a word. -/
theorem isWord_write (h : o.Spelled mnemonic slots text) :
    ∀ t ∈ slots.map (o.write text), IsWord t := by
  refine List.forall_mem_map.2 fun slot hslot => ?_
  cases slot with
  | rd => exact (Register.parse_name h.inSlots.rd.1).2
  | rs => exact (Register.parse_name h.inSlots.rs.1).2
  | rt => exact (Register.parse_name h.inSlots.rt.1).2
  | shift => exact (isNumeral_natural _).isWord
  | memory =>
    have hopen : IsWord "(" := ⟨List.cons_ne_nil _ _, List.all_eq_true.1 rfl⟩
    have hclose : IsWord ")" := ⟨List.cons_ne_nil _ _, List.all_eq_true.1 rfl⟩
    exact (((h.isAtom _ hslot rfl).isWord.append hopen).append
      (Register.parse_name h.inSlots.rs.1).2).append hclose
  | immediate | label | value | target => exact (h.isAtom _ hslot rfl).isWord

/-- Operands that are written into their slots are read back. -/
theorem readSlots_write (h : o.Spelled mnemonic slots text) :
    readSlots mnemonic slots (slots.map (o.write text)) = .ok o := by
  have hzip : slots.zip (slots.map (o.write text)) =
      slots.map fun s => (s, o.write text s) := by
    simpa using @List.zip_map' _ _ _ id (o.write text) slots
  have hrun : slots.foldlM (fun o' s => readSlot mnemonic o' s (o.write text s)) {} =
      .ok (slots.foldl o.copy {}) := foldlM_eq_foldl (fun o' s hs => readSlot_write h hs o') _
  have hcopy : slots.foldl o.copy {} = o := by
    have hoperand : slots.any Slot.hasOperand = false → o.operand = .number 0 := by
      intro hnone
      rcases h.readIn with ⟨s, hs, hslot, -⟩ | ⟨hzero, -⟩
      · exact absurd hslot (List.any_eq_false.1 hnone s hs)
      · exact hzero
    rw [Operands.foldl_copy]
    congr 1
    · exact ite_eq_left_iff.2 fun hnone => (h.inSlots.rs.2 hnone).symm
    · exact ite_eq_left_iff.2 fun hnone => (h.inSlots.rt.2 hnone).symm
    · exact ite_eq_left_iff.2 fun hnone => (h.inSlots.rd.2 hnone).symm
    · exact ite_eq_left_iff.2 fun hnone => (h.inSlots.shift.2 hnone).symm
    · exact ite_eq_left_iff.2 fun hnone => (hoperand (by simpa using hnone)).symm
  rw [readSlots, if_pos (by simp), hzip, List.foldlM_map]
  exact hrun.trans (congrArg _ hcopy)

end Writing

/-! ## The order of the operands -/

section Order

variable {f : Format} (o : Operands) (text : ByteString)

/-- The operands of a register instruction are written in the order of its slots. -/
theorem registerOperands_eq (hnone : ∀ s ∈ f.slots, s.hasOperand = false) :
    registerOperands f o.rs o.rt o.rd o.shift = f.slots.map (o.write text) := by
  cases f with
  | none | rdRsRt | shift | shiftVariable | rs | rdRs | rsRt | rd => rfl
  | arithmetic | upper | branch | branchZero | memory | load | jump =>
    simp [Format.slots, Slot.hasOperand] at hnone

/-- The operands of an immediate instruction are written in the order of its slots. -/
theorem immediateOperands_eq (hsome : ∃ s ∈ f.slots, s.hasOperand = true)
    (htarget : .target ∉ f.slots) :
    immediateOperands (some f) o.rs o.rt text = f.slots.map (o.write text) := by
  cases f with
  | arithmetic | upper | branch | branchZero | memory | load => rfl
  | jump => exact absurd (List.mem_singleton.2 rfl) htarget
  | none | rdRsRt | shift | shiftVariable | rs | rdRs | rsRt | rd =>
    simp [Format.slots, Slot.hasOperand] at hsome

end Order

end Instruction

end MipsAssembler
