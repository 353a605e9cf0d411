import Mathlib.Data.List.Nodup
import MipsAssembler.Proofs.OperandFields
import MipsAssembler.Proofs.Operands

/-!
# Disassembly

`Instruction.render` writes an instruction as source text. For what was read from some source,
however it was spelled there, the text is a source again, of one line and with the same instruction
(`Program.parse_render`). Four things have to agree: the mnemonics are found in the table they come
from and in no table before it, because none occurs twice (`mnemonics_distinct`), the operands are
written in the order in which they are read (`registerOperands_eq`, `immediateOperands_slots`), each of
them reads back (`readSlots_write`), and the literal that is written for an immediate is the same
modulo its width, though it need not be the same number (`readImmediate_immediateText`).

Jumps to a number are left out: they are written as the contents of a field and read as a distance.
-/

namespace MipsAssembler

open ByteString Outcome

/-! ## Mnemonics -/

/-- The mnemonic of a machine instruction in lower case, and not that of a directive. -/
structure IsMnemonic (m : ByteString) : Prop where
  isWord : IsWord m
  lower_eq : lower m = m
  first : m.head? ≠ some (ascii '.')
  ne_nop : m ≠ "nop"

/-- The tables in the order in which a mnemonic is looked for. -/
def opcodes : OpcodeTable := Funct.table ++ ImmediateOp.table ++ JumpOp.table

theorem isMnemonic_of_mem {m : ByteString} (h : m ∈ opcodes.mnemonics) : IsMnemonic m := by
  have hall : ∀ m ∈ opcodes.mnemonics, m ≠ [] ∧ m.all isWordByte = true ∧ lower m = m ∧
      m.head? ≠ some (ascii '.') ∧ m ≠ "nop" := by decide +kernel
  obtain ⟨hne, hbytes, hlower, hfirst, hnop⟩ := hall m h
  exact ⟨⟨hne, List.all_eq_true.1 hbytes⟩, hlower, hfirst, hnop⟩

/-- No mnemonic occurs twice, in one table or in two. -/
theorem mnemonics_distinct : opcodes.mnemonics.Nodup := by decide +kernel

namespace OpcodeTable

variable {t : OpcodeTable} {m : ByteString} {c : UInt8}

theorem mnemonics_append (t t' : OpcodeTable) : mnemonics (t ++ t') = t.mnemonics ++ t'.mnemonics :=
  List.map_append

/-- A mnemonic that occurs once is found with its code. -/
theorem code?_of_mem (hnodup : t.mnemonics.Nodup) {e : UInt8 × Operation} (h : e ∈ t) :
    t.code? e.2.mnemonic = some e.1 := by
  have hsome : (t.find? fun x => x.2.mnemonic = e.2.mnemonic).isSome :=
    List.find?_isSome.2 ⟨e, h, by simp⟩
  obtain ⟨x, hx⟩ := Option.isSome_iff_exists.1 hsome
  have hsame : x.2.mnemonic = e.2.mnemonic := by simpa using List.find?_some hx
  obtain rfl := List.inj_on_of_nodup_map hnodup (List.mem_of_find?_eq_some hx) h hsame
  rw [code?, hx, Option.map_some]

theorem code?_eq_none (h : m ∉ t.mnemonics) : t.code? m = none := by
  rw [code?, Option.map_eq_none_iff, List.find?_eq_none]
  intro x hx heq
  exact h (List.mem_map.2 ⟨x, hx, of_decide_eq_true heq⟩)

/-- The name of a known code is a mnemonic, which is found with the code in its table and in none
before it. -/
theorem nameOf_found (before t after : OpcodeTable) (hall : before ++ t ++ after = opcodes)
    (field : ByteString) (h : (t.lookup c).isSome) :
    IsMnemonic (t.nameOf field c) ∧ t.nameOf field c ∉ before.mnemonics ∧
      t.code? (t.nameOf field c) = some c := by
  have hmem := nameOf_mem field h
  have hdistinct := mnemonics_distinct
  rw [← hall, mnemonics_append, mnemonics_append] at hdistinct
  obtain ⟨-, ht, hbefore⟩ := List.nodup_append.1 (List.nodup_append.1 hdistinct).1
  refine ⟨isMnemonic_of_mem ?_, fun hm => hbefore _ hm _ hmem rfl, ?_⟩
  · rw [← hall, mnemonics_append, mnemonics_append]
    exact List.mem_append_left _ (List.mem_append_right _ hmem)
  · obtain ⟨o, ho, hname⟩ := exists_mem_nameOf field h
    rw [hname]
    exact code?_of_mem ht ho

end OpcodeTable

theorem Funct.mnemonic_found {f : Funct} (h : f.operation?.isSome) :
    IsMnemonic f.name ∧ ofMnemonic? f.name = some f := by
  obtain ⟨hm, -, hfound⟩ :=
    OpcodeTable.nameOf_found [] table (ImmediateOp.table ++ JumpOp.table) rfl "funct" h
  exact ⟨hm, congrArg (Option.map mk) hfound⟩

theorem ImmediateOp.mnemonic_found {op : ImmediateOp} (h : op.operation?.isSome) :
    IsMnemonic op.name ∧ Funct.ofMnemonic? op.name = none ∧ ofMnemonic? op.name = some op := by
  obtain ⟨hm, hnew, hfound⟩ := OpcodeTable.nameOf_found Funct.table table JumpOp.table rfl "op" h
  exact ⟨hm, congrArg (Option.map _) (OpcodeTable.code?_eq_none hnew),
    congrArg (Option.map mk) hfound⟩

theorem JumpOp.mnemonic_found {op : JumpOp} (h : op.operation?.isSome) :
    IsMnemonic op.name ∧ Funct.ofMnemonic? op.name = none ∧ ImmediateOp.ofMnemonic? op.name = none ∧
      ofMnemonic? op.name = some op := by
  obtain ⟨hm, hnew, hfound⟩ :=
    OpcodeTable.nameOf_found (Funct.table ++ ImmediateOp.table) table [] rfl "op" h
  rw [OpcodeTable.mnemonics_append, List.mem_append, not_or] at hnew
  exact ⟨hm, congrArg (Option.map _) (OpcodeTable.code?_eq_none hnew.1),
    congrArg (Option.map _) (OpcodeTable.code?_eq_none hnew.2), congrArg (Option.map mk) hfound⟩

/-- Register instructions show no literals but shift amounts. -/
theorem Funct.hasOperand_eq_false {f : Funct} (h : f.operation?.isSome) {s : Slot}
    (hs : s ∈ f.format.slots) : s.hasOperand = false := by
  obtain ⟨e, he, hc⟩ := OpcodeTable.exists_mem h
  obtain rfl : f = ⟨e.1⟩ := congrArg Funct.mk hc.symm
  have hall : ∀ e ∈ table, ∀ s ∈ (Funct.mk e.1).format.slots, s.hasOperand = false := by
    decide
  exact hall e he s hs

namespace Instruction

/-- Immediate instructions show a literal or a label, and two registers at most. -/
theorem immediateSlots_facts {op : ImmediateOp} (h : op.operation?.isSome) :
    .rd ∉ immediateSlots op ∧ .shift ∉ immediateSlots op ∧ .target ∉ immediateSlots op ∧
      (∃ s ∈ immediateSlots op, s.hasOperand = true) ∧
      (op.format? ≠ some .load → .value ∉ immediateSlots op) := by
  obtain ⟨e, he, hc⟩ := OpcodeTable.exists_mem h
  obtain rfl : op = ⟨e.1⟩ := congrArg ImmediateOp.mk hc.symm
  have hall : ∀ e ∈ ImmediateOp.table, .rd ∉ immediateSlots ⟨e.1⟩ ∧ .shift ∉ immediateSlots ⟨e.1⟩ ∧
      .target ∉ immediateSlots ⟨e.1⟩ ∧ (∃ s ∈ immediateSlots ⟨e.1⟩, s.hasOperand = true) ∧
      ((ImmediateOp.mk e.1).format? ≠ some .load → .value ∉ immediateSlots ⟨e.1⟩) := by decide
  exact hall e he

/-- A known immediate instruction is written in the order of its slots. -/
theorem immediateOperands_slots {op : ImmediateOp} (h : op.operation?.isSome) (o : Operands)
    (text : ByteString) :
    immediateOperands op.format? o.rs o.rt text = (immediateSlots op).map (o.write text) := by
  obtain ⟨-, -, htarget, hsome, -⟩ := immediateSlots_facts h
  obtain ⟨operation, ho⟩ := Option.isSome_iff_exists.1 h
  have hformat : op.format? = some operation.format := by rw [ImmediateOp.format?, ho, Option.map_some]
  rw [immediateSlots, hformat, Option.getD_some] at htarget hsome ⊢
  exact immediateOperands_eq o text hsome htarget

/-! ## Reading what is written -/

section Written

variable {m text : ByteString} {operands : List ByteString} {slots : List Slot} {o : Operands}
  {inst : Instruction}

theorem isPlain_written (hm : IsWord m) (hw : ∀ t ∈ operands, IsWord t) :
    IsPlain (written m operands) := by
  rw [written]
  split
  · exact hm.isPlain
  · rename_i hne
    obtain ⟨hplain, hjoin⟩ := isPlain_join hw hne
    exact .append hm hplain hjoin rfl

theorem head?_written (hm : IsWord m) : (written m operands).head? = m.head? := by
  obtain ⟨b, m, rfl⟩ := List.exists_cons_of_ne_nil hm.ne_nil
  rw [written]
  split <;> rfl

/-- The mnemonic is the first word, and the operands are the fields of the rest. -/
theorem firstWord_written (hm : IsWord m) (hw : ∀ t ∈ operands, IsWord t) :
    ∃ rest, firstWord (written m operands) = (m, rest) ∧
      (if rest = [] then [] else splitOperands rest) = operands := by
  have hgap : ∀ b ∈ m, isGap b = false := fun b hb => isGap_of_isWordByte (hm.bytes b hb)
  rw [written]
  split
  · rename_i hnone
    refine ⟨[], ?_, by simp [hnone]⟩
    rw [firstWord, cutAt_of_forall hgap]
    rfl
  · rename_i hne
    obtain ⟨hplain, hjoin⟩ := isPlain_join hw hne
    refine ⟨join ", " operands, ?_, ?_⟩
    · have hspace : ofString " " = [ascii ' '] := rfl
      rw [firstWord, List.append_assoc, hspace, List.singleton_append, cutAt_append hgap rfl,
        Prod.map_apply, hplain.trim_eq_self]
      rfl
    · rw [if_neg hjoin, splitOperands_join (fun t ht => (hw t ht).isField) hne]

theorem parse_written_register {f : Funct} (hf : f.operation?.isSome)
    (hw : ∀ t ∈ operands, IsWord t) :
    parse (written f.name operands) = parseRegister f operands := by
  obtain ⟨hm, hfunct⟩ := Funct.mnemonic_found hf
  obtain ⟨rest, hfirst, hfields⟩ := firstWord_written hm.isWord hw
  simp only [parse, hfirst, hm.lower_eq, hfields, if_neg hm.ne_nop, hfunct]

theorem parse_written_immediate {op : ImmediateOp} (hop : op.operation?.isSome)
    (hw : ∀ t ∈ operands, IsWord t) :
    parse (written op.name operands) = parseImmediate op operands := by
  obtain ⟨hm, hfunct, hfound⟩ := ImmediateOp.mnemonic_found hop
  obtain ⟨rest, hfirst, hfields⟩ := firstWord_written hm.isWord hw
  simp only [parse, hfirst, hm.lower_eq, hfields, if_neg hm.ne_nop, hfunct, hfound]

theorem parse_written_jump {op : JumpOp} (hop : op.operation?.isSome)
    (hw : ∀ t ∈ operands, IsWord t) :
    parse (written op.name operands) = parseJump op operands := by
  obtain ⟨hm, hfunct, himmediate, hfound⟩ := JumpOp.mnemonic_found hop
  obtain ⟨rest, hfirst, hfields⟩ := firstWord_written hm.isWord hw
  simp only [parse, hfirst, hm.lower_eq, hfields, if_neg hm.ne_nop, hfunct, himmediate, hfound]

/-- What is written starts with the mnemonic. -/
theorem written_start (hm : IsMnemonic m) :
    written m operands ≠ [] ∧ (written m operands).head? ≠ some (ascii '.') := by
  have hhead : (written m operands).head? = m.head? := head?_written hm.isWord
  refine ⟨fun hnil => ?_, hhead ▸ hm.first⟩
  rw [hnil] at hhead
  exact hm.isWord.ne_nil (List.head?_eq_none_iff.1 hhead.symm)

/-- What is written on a line of its own is a source. -/
theorem Operands.Spelled.parse_program (h : o.Spelled m slots text) (hm : IsMnemonic m)
    (hparse : parse (written m (slots.map (o.write text))) = .ok inst) :
    Program.parse (written m (slots.map (o.write text))) = .ok (.single inst) := by
  obtain ⟨hne, hstart⟩ := written_start hm
  exact Program.parse_plain (isPlain_written hm.isWord (isWord_write h)) hne hstart hparse

end Written

/-! ## Literals and labels -/

theorem toUInt16_ofInt {x : Int} {n : UInt16} (h : x % 65536 = n.toNat) :
    (UInt32.ofInt x).toUInt16 = n := by
  rw [← UInt16.toNat_inj, UInt32.toNat_toUInt16, UInt32.ofInt, UInt32.toNat_ofNat']
  omega

theorem toInt16_facts (n : UInt16) : n.toInt16.toInt % 65536 = n.toNat ∧
    -0x8000 ≤ n.toInt16.toInt ∧ n.toInt16.toInt ≤ 0xFFFF := by
  have hn := n.toNat_lt
  have hsigned : n.toInt16.toInt = (n.toNat : Int).bmod 65536 :=
    BitVec.toInt_eq_toNat_bmod n.toBitVec
  rw [hsigned, Int.bmod_def]
  omega

theorem readOperand_numeral {low high v : Int} {text : ByteString} (htext : IsNumeral text)
    (h : readLiteral low high text = .ok v) :
    readOperand low high text = .ok (.number (UInt32.ofInt v)) := by
  rw [readOperand, htext.isSymbol_eq_false, h]
  rfl

/-- The text of an immediate is a numeral for it, modulo its width. -/
theorem readImmediate_immediateText (op : ImmediateOp) (n : UInt16) :
    IsNumeral (immediateText op n) ∧
      ∃ v : UInt32, readImmediate (immediateText op n) = .ok (.number v) ∧ v.toUInt16 = n := by
  have hn := n.toNat_lt
  obtain ⟨hmod, hlow, hhigh⟩ := toInt16_facts n
  rw [immediateText]
  split
  · have hnumeral := isNumeral_decimal n.toInt16.toInt
    exact ⟨hnumeral, _, readOperand_numeral hnumeral
      (readLiteral_decimal hlow hhigh (by decide) (by decide)), toUInt16_ofInt hmod⟩
  · have hnumeral := isNumeral_hex 4 n.toNat
    exact ⟨hnumeral, _, readOperand_numeral hnumeral
      (readLiteral_hex 4 (by omega) (by omega) (by decide)), toUInt16_ofInt (by omega)⟩

theorem readValue_hex {m : ByteString} (hm : m ≠ "la") (n : UInt32) :
    readValue m ("0x" ++ hex 1 n.toNat) = .ok (.number n) := by
  have hn := n.toNat_lt
  have hnumeral := isNumeral_hex 1 n.toNat
  rw [readValue, hnumeral.isHalf_eq_false, hnumeral.isSymbol_eq_false]
  simp only [Bool.false_eq_true, if_false, if_neg hm]
  rw [readOperand_numeral hnumeral (readLiteral_hex 1 (by omega) (by omega) (by decide)),
    word_ofInt_toNat]

/-- A label is read as itself where it may stand. -/
theorem readerOf_symbol {m n : ByteString} {slot : Slot} (h : (Operand.symbol n).Suits m slot) :
    readerOf m slot n = .ok (.symbol n) := by
  have hread : ∀ low high, readOperand low high n = .ok (.symbol n) := fun low high => if_pos h.1
  cases slot with
  | value =>
    rw [readerOf, readValue, h.2 rfl]
    simp only [Bool.false_eq_true, if_false, if_pos h.1]
  | target =>
    rw [readerOf, readTarget, hread]
    rfl
  | rd | rs | rt | shift | immediate | label | memory => exact hread _ _

/-! ## Instructions -/

section Rendering

variable {m n : ByteString} {o : Operands} {fields : List ByteString} {inst : Instruction}

/-- Operands with a label are spelled by the label. -/
theorem spelled_symbol (f : Format) (hslots : o.InSlots f.slots)
    (hread : o.operand.ReadIn m f.slots) (hn : o.operand = .symbol n) :
    o.Spelled m f.slots n := by
  obtain ⟨s, hs, hslot, hsuits⟩ | ⟨hzero, -⟩ := hread
  · rw [hn] at hsuits
    refine ⟨hslots, .inl ⟨s, hs, hslot, hn ▸ hsuits⟩, fun _ _ _ => isAtom_of_isSymbol hsuits.1, ?_⟩
    intro s' hs' hslot'
    rw [f.operandSlot_unique hs' hs hslot' hslot, hn]
    exact readerOf_symbol hsuits
  · cases hn.symm.trans hzero

theorem parse_render_nop : Program.parse nop.render = .ok (.single nop) :=
  eq_ok_of_toOption (by decide +kernel)

theorem parse_render_register {f : Funct} (hf : f.operation?.isSome)
    (h : parseRegister f fields = .ok inst) : Program.parse inst.render = .ok (.single inst) := by
  obtain ⟨o, ho, rfl⟩ := map_eq_ok.1 h
  obtain ⟨hslots, hread⟩ := readSlots_inv ho
  by_cases hnop : register f o.rs o.rt o.rd o.shift = nop
  · rw [hnop]
    exact parse_render_nop
  have hnone : ∀ s ∈ f.format.slots, s.hasOperand = false := fun s => Funct.hasOperand_eq_false hf
  rw [render, if_neg hnop, registerOperands_eq o [] hnone]
  have hspelled : o.Spelled f.name f.format.slots [] :=
    ⟨hslots, hread, fun s hs hslot => absurd hslot (by simp [hnone s hs]),
      fun s hs hslot => absurd hslot (by simp [hnone s hs])⟩
  refine hspelled.parse_program (Funct.mnemonic_found hf).1 ?_
  rw [parse_written_register hf (isWord_write hspelled), parseRegister, registerFields, if_neg ?_,
    readSlots_write hspelled]
  · rfl
  · rintro ⟨hformat, hlength⟩
    simp [hformat, Format.slots] at hlength

theorem parse_render_jumpLabel {op : JumpOp} (hop : op.operation?.isSome)
    (h : parseJump op fields = .ok inst) (hjump : ∀ op target, inst ≠ .jump op target) :
    Program.parse inst.render = .ok (.single inst) := by
  obtain ⟨⟨rs, rt, rd, shift, operand⟩, ho, rfl⟩ := map_eq_ok.1 h
  obtain ⟨hslots, hread⟩ := readSlots_inv ho
  obtain rfl : rs = .zero := hslots.rs.2 (by decide)
  obtain rfl : rt = .zero := hslots.rt.2 (by decide)
  obtain rfl : rd = .zero := hslots.rd.2 (by decide)
  obtain rfl : shift = 0 := hslots.shift.2 (by decide)
  cases operand with
  | number v => exact absurd rfl (hjump op v)
  | symbol n =>
    have hspelled := spelled_symbol .jump hslots hread rfl
    refine hspelled.parse_program (JumpOp.mnemonic_found hop).1 ?_
    rw [parse_written_jump hop (isWord_write hspelled), parseJump]
    exact map_eq_ok.2 ⟨_, readSlots_write hspelled, rfl⟩

/-- A literal that is loaded as a whole. -/
theorem spelled_value {rt : Register} {v : UInt32}
    (hslots : ({ rt, operand := .number v } : Operands).InSlots [.rt, .value])
    (hread : (Operand.number v).ReadIn m [.rt, .value]) :
    ({ rt, operand := .number v } : Operands).Spelled m [.rt, .value]
      ("0x" ++ hex 1 v.toNat) := by
  have hunique : ∀ s ∈ [Slot.rt, .value], s.hasOperand = true → s = .value := by decide
  have hm : m ≠ "la" := by
    obtain ⟨s, hs, hslot, hsuits⟩ | ⟨-, hnone⟩ := hread
    · exact hsuits (hunique s hs hslot)
    · cases hnone .value (by simp)
  refine ⟨hslots, hread, fun _ _ _ => (isNumeral_hex _ _).isAtom, fun s hs hslot => ?_⟩
  rw [hunique s hs hslot]
  exact readValue_hex hm v

/-- An immediate instruction whose operands a text spells. -/
theorem Operands.Spelled.parse_immediate {op : ImmediateOp} {text : ByteString}
    (h : o.Spelled op.name (immediateSlots op) text) (hop : op.operation?.isSome)
    (hinst : ∀ fields, readSlots op.name (immediateSlots op) fields = .ok o →
      parseImmediate op fields = .ok inst) :
    Program.parse (written op.name (immediateOperands op.format? o.rs o.rt text)) =
      .ok (.single inst) := by
  rw [immediateOperands_slots hop]
  refine h.parse_program (ImmediateOp.mnemonic_found hop).1 ?_
  rw [parse_written_immediate hop (isWord_write h)]
  exact hinst _ (readSlots_write h)

theorem parse_render_immediate {op : ImmediateOp} (hop : op.operation?.isSome)
    (h : parseImmediate op fields = .ok inst) : Program.parse inst.render = .ok (.single inst) := by
  obtain ⟨hrd, hshift, htarget, ⟨t, ht, htoperand⟩, hvalue⟩ := immediateSlots_facts hop
  obtain ⟨⟨rs, rt, rd, shift, operand⟩, ho, rfl⟩ := map_eq_ok.1 h
  obtain ⟨hslots, hread⟩ := readSlots_inv ho
  obtain rfl : rd = .zero := hslots.rd.2 hrd
  obtain rfl : shift = 0 := hslots.shift.2 hshift
  cases operand with
  | symbol n =>
    have hspelled := spelled_symbol _ hslots hread rfl
    exact hspelled.parse_immediate hop fun _ hfields => map_eq_ok.2 ⟨_, hfields, rfl⟩
  | number v =>
    dsimp only
    split
    · rename_i hload
      have himmediate : immediateSlots op = [.rt, .value] := by
        rw [immediateSlots, hload]
        rfl
      rw [himmediate] at hslots hread
      obtain rfl : rs = .zero := hslots.rs.2 (by decide)
      have hspelled := spelled_value hslots hread
      rw [← himmediate] at hspelled
      have hparse := hspelled.parse_immediate hop fun _ hfields =>
        map_eq_ok.2 ⟨_, hfields, if_pos hload⟩
      rw [hload] at hparse
      exact hparse
    · rename_i hload
      obtain ⟨hnumeral, v', hv', hsame⟩ := readImmediate_immediateText op v.toUInt16
      have hspelled : ({ rs, rt, operand := .number v' } : Operands).Spelled op.name
          (immediateSlots op) (immediateText op v.toUInt16) := by
        refine ⟨{ hslots with }, ?_, fun _ _ _ => hnumeral.isAtom, fun s hs hslot => ?_⟩
        · exact .inl ⟨t, ht, htoperand, fun hs => absurd (hs ▸ ht) (hvalue hload)⟩
        · cases s with
          | value => exact absurd hs (hvalue hload)
          | target => exact absurd hs htarget
          | rd | rs | rt | shift | immediate | label | memory => exact hv'
      refine hspelled.parse_immediate hop fun _ hfields => map_eq_ok.2 ⟨_, hfields, ?_⟩
      dsimp only
      rw [if_neg hload, hsame]

end Rendering

end Instruction

/-- **Disassembly assembles again.** The text of an instruction that was read from some source,
other than a jump to a number, is itself a source: it is read as a program with this instruction as
its only entry. -/
theorem Program.parse_render {text : ByteString} {inst : Instruction}
    (h : Instruction.parse text = .ok inst) (hjump : ∀ op target, inst ≠ .jump op target) :
    Program.parse inst.render = .ok (.single inst) := by
  obtain rfl | ⟨f, fields, hf, h⟩ | ⟨op, fields, hop, h⟩ | ⟨op, fields, hop, h⟩ :=
    Instruction.parse_inv h
  · exact Instruction.parse_render_nop
  · exact Instruction.parse_render_register hf h
  · exact Instruction.parse_render_immediate hop h
  · exact Instruction.parse_render_jumpLabel hop h hjump

/-- A branch by a distance that is read as a positive number and written as a negative one, and half
of an address as an offset from a register. -/
theorem Program.parse_render_respelled :
    Program.parse (ofString "beq $t1, $zero, -2") =
        .ok (.single (.immediate ⟨4⟩ ⟨9⟩ ⟨0⟩ 0xFFFE)) ∧
      Program.parse (ofString "lw $t0, x.y@lo($fp)") =
        .ok (.single (.immediateLabel ⟨0x23⟩ ⟨30⟩ ⟨8⟩ "x.y@lo")) := by
  have hbranch : Instruction.parse (ofString "BEQ $9,$0 , 0xFFFE") =
      .ok (.immediate ⟨4⟩ ⟨9⟩ ⟨0⟩ 0xFFFE) := eq_ok_of_toOption (by decide +kernel)
  have hload : Instruction.parse (ofString "lw $8, x.y@lo( $s8)") =
      .ok (.immediateLabel ⟨0x23⟩ ⟨30⟩ ⟨8⟩ "x.y@lo") := eq_ok_of_toOption (by decide +kernel)
  have hrender : (Instruction.immediate ⟨4⟩ ⟨9⟩ ⟨0⟩ 0xFFFE).render = ofString "beq $t1, $zero, -2" ∧
      (Instruction.immediateLabel ⟨0x23⟩ ⟨30⟩ ⟨8⟩ "x.y@lo").render =
        ofString "lw $t0, x.y@lo($fp)" := by decide +kernel
  rw [← hrender.1, ← hrender.2]
  exact ⟨Program.parse_render hbranch nofun, Program.parse_render hload nofun⟩

end MipsAssembler
