import MipsAssembler.Proofs.LabelMap

/-!
# What pseudo instructions do

A pseudo instruction loads a whole value of 32 bits into a register; `Instruction.loaded?` says which
and where. The two machine instructions in its place do the same to every register file (`Loads`),
whether the value is a literal or the address of a label:

* `Entry.Expands` describes what takes the place of an entry before labels have their values, and
  `Entry.Realizes` what it is in the end.
* The names of the halves of an address are defined together with the label and in no other way
  (`SymbolTable.Splits`), because names in a source hold no `@`. Hence a half that has a value has
  half of the value of its label, and that fits (`link_half_error`, `halves_of_link`).

`Program.parse_expand_loads` puts this together for all entries of a program.
-/

namespace MipsAssembler

open ByteString Outcome

/-! ## Register files -/

/-- The contents of the registers. One of them always holds zero. -/
structure RegisterFile where
  read : Register → UInt32
  zero : read .zero = 0

namespace RegisterFile

/-- The registers after a write; what is written to the register that holds zero is lost. -/
def write (f : RegisterFile) (r : Register) (v : UInt32) : RegisterFile where
  read r' := if r' = r ∧ r ≠ .zero then v else f.read r'
  zero := by
    rw [if_neg fun h => h.2 h.1.symm]
    exact f.zero

@[simp] theorem read_write_of_ne (f : RegisterFile) {r r' : Register} (h : r' ≠ r) (v : UInt32) :
    (f.write r v).read r' = f.read r' := by
  simp [write, h]

@[simp] theorem read_write_self (f : RegisterFile) {r : Register} (h : r ≠ .zero) (v : UInt32) :
    (f.write r v).read r = v := by
  simp [write, h]

end RegisterFile

namespace Instruction

/-- What the machine instructions that load halves of a value do to the registers. -/
def execute? (f : RegisterFile) : Instruction → Option RegisterFile
  | immediate op rs rt value =>
    if op = .loadUpper then some (f.write rt (value.toUInt32 <<< 16))
    else if op = .orImmediate then some (f.write rt (f.read rs ||| value.toUInt32))
    else none
  | _ => none

/-- Executed one after the other, the instructions load `v` into `rt` and change no other register. -/
def Loads (insts : List Instruction) (rt : Register) (v : UInt32) : Prop :=
  ∀ f : RegisterFile, ∃ f', insts.foldlM execute? f = some f' ∧
    (∀ r, r ≠ rt → f'.read r = f.read r) ∧ (rt ≠ .zero → f'.read rt = v)

/-! ## Pseudo instructions and their halves -/

/-- What a pseudo instruction loads, and into which register. -/
def loaded? : Instruction → Option (Register × Operand)
  | loadLiteral _ rt value => some (rt, .number value)
  | immediate op _ rt value => if op.isPseudo then some (rt, .number value.toUInt32) else none
  | immediateLabel op _ rt label => if op.isPseudo then some (rt, .symbol label) else none
  | _ => none

/-- The instruction that loads the upper half of a value. -/
def upperHalf (rt : Register) : Operand → Instruction
  | .number v => immediate .loadUpper .zero rt (v / 0x10000).toUInt16
  | .symbol n => immediateLabel .loadUpper .zero rt (n ++ upperEnding)

/-- The instruction that sets the bits of the lower half of a value. -/
def lowerHalf (rt : Register) : Operand → Instruction
  | .number v => immediate .orImmediate rt rt v.toUInt16
  | .symbol n => immediateLabel .orImmediate rt rt (n ++ lowerEnding)

/-- The value of an operand once labels have theirs. -/
def Operand.value? (t : SymbolTable) : Operand → Option UInt32
  | number v => some v
  | symbol n => t.lookup n

variable {inst : Instruction} {rt : Register} {operand : Operand}

theorem expand_of_loaded_none (h : inst.loaded? = none) : inst.expand = [inst] := by
  cases inst <;> simp_all [loaded?, expand]

theorem expand_of_loaded (h : inst.loaded? = some (rt, operand)) :
    inst.expand = [upperHalf rt operand, lowerHalf rt operand] := by
  cases inst with
  | immediate op rs rt' value =>
    obtain ⟨hop, h⟩ := Option.ite_none_right_eq_some.1 h
    obtain ⟨rfl, rfl⟩ := Prod.mk.inj (Option.some.inj h)
    rw [expand, if_pos hop]
    rfl
  | immediateLabel op rs rt' label =>
    obtain ⟨hop, h⟩ := Option.ite_none_right_eq_some.1 h
    obtain ⟨rfl, rfl⟩ := Prod.mk.inj (Option.some.inj h)
    rw [expand, if_pos hop]
    rfl
  | loadLiteral op rt' value =>
    obtain ⟨rfl, rfl⟩ := Prod.mk.inj (Option.some.inj h)
    rfl
  | register | jump | jumpLabel => cases h

theorem isMachine_iff : inst.IsMachine ↔ inst.loaded? = none := by
  cases inst <;> simp [IsMachine, loaded?]

theorem mnemonic_halves (rt : Register) (operand : Operand) :
    (upperHalf rt operand).mnemonic = "lui" ∧ (lowerHalf rt operand).mnemonic = "ori" := by
  have hupper : ImmediateOp.loadUpper.name = "lui" := by decide
  have hlower : ImmediateOp.orImmediate.name = "ori" := by decide
  cases operand <;> exact ⟨hupper, hlower⟩

/-- The two halves of a value load it. -/
theorem loads_halves (rt : Register) (v : UInt32) :
    Loads [upperHalf rt (.number v), lowerHalf rt (.number v)] rt v := by
  have hupper : (v / 0x10000).toUInt16.toUInt32 = v >>> 16 := by
    have hv := v.toNat_lt
    rw [div_eq_shiftRight, ← UInt32.toNat_inj, UInt16.toNat_toUInt32, UInt32.toNat_toUInt16]
    simp only [UInt32.toNat_shiftRight, UInt32.reduceToNat, Nat.reduceMod, Nat.shiftRight_eq_div_pow]
    omega
  have hlower : v.toUInt16.toUInt32 = v &&& 0xFFFF := by
    rw [← mod_eq_and, ← UInt32.toNat_inj, UInt16.toNat_toUInt32, UInt32.toNat_toUInt16,
      UInt32.toNat_mod]
    rfl
  intro f
  refine ⟨_, rfl, fun r hr => ?_, fun hrt => ?_⟩
  · rw [RegisterFile.read_write_of_ne _ hr, RegisterFile.read_write_of_ne _ hr]
  · rw [RegisterFile.read_write_self _ hrt, RegisterFile.read_write_self _ hrt, hupper, hlower,
      halves_join]

end Instruction

/-! ## Pseudo instructions in a source -/

/-- The pseudo instructions are those that load a whole value. -/
theorem ImmediateOp.isPseudo_iff {op : ImmediateOp} (h : op.operation?.isSome) :
    (op.isPseudo = true ↔ op.format? = some .load) ∧
      (op.isPseudo = true ↔ op.name = "la" ∨ op.name = "li") := by
  obtain ⟨e, he, hc⟩ := OpcodeTable.exists_mem h
  obtain rfl : op = ⟨e.1⟩ := congrArg ImmediateOp.mk hc.symm
  have hall : ∀ e ∈ ImmediateOp.table,
      ((ImmediateOp.mk e.1).isPseudo = true ↔ (ImmediateOp.mk e.1).format? = some .load) ∧
        ((ImmediateOp.mk e.1).isPseudo = true ↔
          (ImmediateOp.mk e.1).name = "la" ∨ (ImmediateOp.mk e.1).name = "li") := by decide
  exact hall e he

/-- The mnemonics of pseudo instructions are in one table only. -/
theorem load_notMem_mnemonics : ∀ t ∈ [Funct.table, JumpOp.table], ∀ m ∈ t.mnemonics,
    ¬(m = "la" ∨ m = "li") := by decide

namespace Instruction

/-- A label that is to be loaded as a whole is a name. -/
theorem isName_of_readValue {mnemonic text n : ByteString}
    (h : readValue mnemonic text = .ok (.symbol n)) : isName n = true := by
  rw [readValue] at h
  split at h
  · cases h
  rename_i hhalf
  -- a text that stands for no half of an address is not shortened
  have hwhole : wholeName text = text := by
    simp only [isHalf, Bool.or_eq_true, not_or] at hhalf
    simp [wholeName, stripEnding, hhalf]
  split at h
  · rename_i hsymbol
    obtain rfl := Operand.symbol.inj (Except.ok.inj h)
    rwa [isSymbol, hwhole] at hsymbol
  rename_i hsymbol
  split at h
  · cases h
  rw [readOperand, if_neg hsymbol, map_eq_ok] at h
  obtain ⟨v, -, hv⟩ := h
  cases hv

theorem readSlots_value {mnemonic : ByteString} {fields : List ByteString} {o : Operands}
    (h : readSlots mnemonic [.rt, .value] fields = .ok o) {n : ByteString}
    (hn : o.operand = .symbol n) : isName n = true := by
  rw [readSlots] at h
  split at h
  · rename_i hlength
    obtain ⟨first, second, rfl⟩ := List.length_eq_two.1 hlength
    simp only [List.zip_cons_cons, List.zip_nil_right, List.foldlM_cons, List.foldlM_nil] at h
    obtain ⟨o₁, -, h⟩ := bind_eq_ok.1 h
    obtain ⟨o₂, ho₂, h⟩ := bind_eq_ok.1 h
    obtain rfl := pure_eq_ok.1 h
    simp only [readSlot, map_eq_ok] at ho₂
    obtain ⟨operand, hread, rfl⟩ := ho₂
    obtain rfl : operand = .symbol n := hn
    exact isName_of_readValue hread
  · split at h <;> cases h

namespace Readable

variable {inst : Instruction}

/-- An instruction in a source is a pseudo instruction exactly if it has one of the two mnemonics, and
then it names a label and not half of one. -/
theorem loaded_cases (h : inst.Readable) :
    (inst.loaded? = none ∧ ¬(inst.mnemonic = "la" ∨ inst.mnemonic = "li")) ∨
      ∃ rt operand, inst.loaded? = some (rt, operand) ∧
        (inst.mnemonic = "la" ∨ inst.mnemonic = "li") ∧
        ∀ n, operand = .symbol n → isName n = true := by
  obtain ⟨text, h⟩ := h
  obtain rfl | ⟨f, fields, hf, h⟩ | ⟨op, fields, hop, h⟩ | ⟨op, fields, hop, h⟩ := parse_inv h
  · exact .inl ⟨rfl, by decide⟩
  · obtain ⟨o, -, rfl⟩ := map_eq_ok.1 h
    exact .inl ⟨rfl, load_notMem_mnemonics _ (by simp) _ (OpcodeTable.nameOf_mem _ hf)⟩
  · obtain ⟨hformat, hname⟩ := ImmediateOp.isPseudo_iff hop
    obtain ⟨o, ho, rfl⟩ := map_eq_ok.1 h
    by_cases hpseudo : op.isPseudo = true
    · have hload := hformat.1 hpseudo
      rw [immediateSlots, hload] at ho
      right
      cases hoperand : o.operand with
      | symbol n =>
        refine ⟨o.rt, .symbol n, if_pos hpseudo, hname.1 hpseudo, fun m hm => ?_⟩
        exact readSlots_value ho (hoperand.trans hm)
      | number v =>
        dsimp only
        rw [if_pos hload]
        exact ⟨o.rt, .number v, rfl, hname.1 hpseudo, nofun⟩
    · left
      cases o.operand with
      | symbol n => exact ⟨if_neg hpseudo, mt hname.2 hpseudo⟩
      | number v =>
        dsimp only
        rw [if_neg (mt hformat.2 hpseudo)]
        exact ⟨if_neg hpseudo, mt hname.2 hpseudo⟩
  · obtain ⟨o, -, rfl⟩ := map_eq_ok.1 h
    have hname : ¬(op.name = "la" ∨ op.name = "li") :=
      load_notMem_mnemonics _ (by simp) _ (OpcodeTable.nameOf_mem _ hop)
    left
    cases o.operand with
    | symbol n => exact ⟨rfl, hname⟩
    | number v => exact ⟨rfl, hname⟩

theorem isSome_loaded_iff (h : inst.Readable) :
    inst.loaded?.isSome ↔ inst.mnemonic = "la" ∨ inst.mnemonic = "li" := by
  obtain ⟨hnone, hname⟩ | ⟨rt, operand, hsome, hname, -⟩ := h.loaded_cases
  · simp only [hnone, hname, Option.isSome_none, Bool.false_eq_true]
  · simp only [hsome, hname, Option.isSome_some]

theorem isName_of_loaded (h : inst.Readable) {rt : Register} {n : ByteString}
    (hloaded : inst.loaded? = some (rt, .symbol n)) : isName n = true := by
  obtain ⟨hnone, -⟩ | ⟨rt', operand, hsome, -, hnames⟩ := h.loaded_cases
  · cases hnone.symm.trans hloaded
  · obtain ⟨-, rfl⟩ := Prod.mk.inj (Option.some.inj (hsome.symm.trans hloaded))
    exact hnames n rfl

end Readable

end Instruction

/-! ## Halves of addresses -/

/-- Whatever name of those that come with `n` the table knows, it knows with `n` and both halves. -/
def SymbolTable.Splits (t : SymbolTable) (n : ByteString) : Prop :=
  ∀ x ∈ namesOf n, (t.lookup x).isSome → ∃ a, t.Maps n a

/-- The names that come with a name come with no other. -/
theorem SymbolTable.Records.splits {t : SymbolTable} {ds : List Definition} (h : t.Records ds)
    (hnames : ∀ d ∈ ds, isName d.name = true) {n : ByteString} (hn : isName n = true) :
    t.Splits n := by
  intro x hx hsome
  obtain ⟨d, hd, hxd⟩ := (h.isSome_lookup x).1 hsome
  have hname : n = d.name := by
    by_contra hne
    exact (namesApart_iff hn (hnames d hd)).2 hne x hx hxd
  exact ⟨d.address, hname ▸ h.maps hd⟩

theorem Program.Written.splits {w : Windows} {p settled : Program} {t : SymbolTable} (hw : p.Written)
    (h : p.expand.settle w = .ok (settled, t)) {n : ByteString} (hn : isName n = true) :
    t.Splits n := by
  obtain ⟨placed, hsettles, -⟩ := Program.settle_eq_ok.1 h
  refine hsettles.records.splits (fun d hd => ?_) hn
  have hlabel : d.name ∈ p.labels := by
    rw [← p.labels_expand, ← hsettles.names_eq]
    exact List.mem_map_of_mem hd
  exact hw.isName_of_mem_labels hlabel

namespace Instruction

variable {t : SymbolTable} {source : UInt32} {rt : Register} {n : ByteString}

/-- An operand with a small value gets it. -/
theorem link_of_lookup {op : ImmediateOp} {rs : Register} {v : UInt32} (hop : op.isBranch = false)
    (hv : t.lookup n = some v) (hsmall : v.toNat ≤ 0xFFFF) :
    (immediateLabel op rs rt n).link t source = .ok (immediate op rs rt v.toUInt16) := by
  unfold link
  refine bind_eq_ok.2 ⟨v, labelValue_eq_ok.2 hv, ?_⟩
  rw [if_neg (by simp [hop])]
  exact bind_eq_ok.2 ⟨v, immediateField_eq_ok.2 ⟨hsmall, rfl⟩, rfl⟩

theorem link_of_lookup_none {op : ImmediateOp} {rs : Register} (h : t.lookup n = none) :
    (immediateLabel op rs rt n).link t source = .error (.unresolved n) := by
  simp only [link, labelValue, h]
  rfl

/-- The halves of a label get the halves of its address. -/
theorem link_halves (rt : Register) {a : UInt32} (h : t.Maps n a) (source : UInt32) :
    (upperHalf rt (.symbol n)).link t source = .ok (upperHalf rt (.number a)) ∧
      (lowerHalf rt (.symbol n)).link t source = .ok (lowerHalf rt (.number a)) := by
  have hlower : (a &&& 0xFFFF).toUInt16 = a.toUInt16 := by
    rw [← mod_eq_and, ← UInt16.toNat_inj, UInt32.toNat_toUInt16, UInt32.toNat_toUInt16,
      UInt32.toNat_mod]
    exact Nat.mod_mod _ _
  constructor
  · rw [upperHalf, upperHalf, link_of_lookup rfl h.upper (upper_le a), div_eq_shiftRight]
  · rw [lowerHalf, lowerHalf, link_of_lookup rfl h.lower (lower_le a), hlower]

/-- Without the label, the names of its halves have no values. -/
theorem link_halves_of_lookup_none (rt : Register) (h : t.Splits n) (hn : t.lookup n = none)
    (source : UInt32) :
    (upperHalf rt (.symbol n)).link t source = .error (.unresolved (n ++ upperEnding)) ∧
      (lowerHalf rt (.symbol n)).link t source = .error (.unresolved (n ++ lowerEnding)) := by
  have hnone : ∀ x ∈ namesOf n, t.lookup x = none := by
    intro x hx
    rw [← Option.not_isSome_iff_eq_none]
    intro hsome
    obtain ⟨b, hmaps⟩ := h x hx hsome
    rw [hmaps.whole] at hn
    cases hn
  exact ⟨link_of_lookup_none (hnone _ (by simp [namesOf])),
    link_of_lookup_none (hnone _ (by simp [namesOf]))⟩

/-- A half of a label fails to get its value only if the label has none; that it does not fit its
field never happens. -/
theorem link_half_error (h : t.Splits n) {inst : Instruction}
    (hinst : inst ∈ [upperHalf rt (.symbol n), lowerHalf rt (.symbol n)]) {e : EntryError}
    (he : inst.link t source = .error e) : t.lookup n = none ∧ e.kind = .unresolvedLabel := by
  cases hn : t.lookup n with
  | some a =>
    obtain ⟨b, hmaps⟩ := h n (by simp [namesOf]) (by simp [hn])
    obtain ⟨hupper, hlower⟩ := link_halves rt hmaps source
    rcases List.mem_pair.1 hinst with rfl | rfl
    · cases hupper.symm.trans he
    · cases hlower.symm.trans he
  | none =>
    obtain ⟨hupper, hlower⟩ := link_halves_of_lookup_none rt h hn source
    refine ⟨rfl, ?_⟩
    rcases List.mem_pair.1 hinst with rfl | rfl
    · obtain rfl := Except.error.inj (hupper.symm.trans he)
      rfl
    · obtain rfl := Except.error.inj (hlower.symm.trans he)
      rfl

/-- The halves of an operand become the halves of its value. -/
theorem halves_of_link {operand : Operand} {source' : UInt32} {upper lower : Instruction}
    (h : ∀ n, operand = .symbol n → t.Splits n)
    (hupper : (upperHalf rt operand).link t source = .ok upper)
    (hlower : (lowerHalf rt operand).link t source' = .ok lower) :
    ∃ v, operand.value? t = some v ∧
      upper = upperHalf rt (.number v) ∧ lower = lowerHalf rt (.number v) := by
  cases operand with
  | number v => exact ⟨v, rfl, (Except.ok.inj hupper).symm, (Except.ok.inj hlower).symm⟩
  | symbol n =>
    have hsplits := h n rfl
    cases hn : t.lookup n with
    | none => cases (link_halves_of_lookup_none rt hsplits hn source).1.symm.trans hupper
    | some a =>
      obtain ⟨b, hmaps⟩ := hsplits n (by simp [namesOf]) (by simp [hn])
      refine ⟨b, hmaps.whole, ?_, ?_⟩
      · exact Except.ok.inj (hupper.symm.trans (link_halves rt hmaps source).1)
      · exact Except.ok.inj (hlower.symm.trans (link_halves rt hmaps source').2)

end Instruction

/-! ## Entries -/

namespace Entry

/-- What takes the place of an entry. A pseudo instruction gives way to an instruction for each half:
the first has its place, the second has no labels. All else stays as it is. -/
inductive Expands (e : Entry Instruction) : List (Entry Instruction) → Prop
  | kept (machine : e.item.loaded? = none) : Expands e [e]
  | pair {rt operand upper lower} (loaded : e.item.loaded? = some (rt, operand))
      (first : upper.mnemonic = ofString "lui") (second : lower.mnemonic = ofString "ori")
      (literal : ∀ v, operand = .number v → Instruction.Loads [upper, lower] rt v) :
      Expands e [{ place := e.place, item := upper, line := e.line },
        { place := none, item := lower, line := e.line }]

/-- What is in the place of an entry in the end. The instructions in the place of a pseudo instruction
load its value, which for a label is that in the table. -/
inductive Realizes (t : SymbolTable) (e : Entry Instruction) : List (Entry Instruction) → Prop
  | kept {e₁ e'} (machine : e.item.loaded? = none) (located : e.Located e₁)
      (linked : Entry.Linked t e₁ e') : Realizes t e [e']
  | pair {rt operand v} {upper lower : Entry Instruction}
      (loaded : e.item.loaded? = some (rt, operand)) (value : operand.value? t = some v)
      (loads : Instruction.Loads [upper.item, lower.item] rt v)
      (upperLabels : labelsOf upper.place = labelsOf e.place) (lowerLabels : labelsOf lower.place = [])
      (upperLine : upper.line = e.line) (lowerLine : lower.line = e.line) :
      Realizes t e [upper, lower]

variable {e : Entry Instruction}

theorem expand_of_loaded_none (h : e.item.loaded? = none) : e.expand = [e] := by
  simp [expand, Instruction.expand_of_loaded_none h]

theorem expand_of_loaded {rt : Register} {operand : Instruction.Operand}
    (h : e.item.loaded? = some (rt, operand)) :
    e.expand = [{ e with item := .upperHalf rt operand },
      { place := none, item := .lowerHalf rt operand, line := e.line }] := by
  simp [expand, Instruction.expand_of_loaded h]

theorem expands (e : Entry Instruction) : e.Expands e.expand := by
  cases h : e.item.loaded? with
  | none =>
    rw [expand_of_loaded_none h]
    exact .kept h
  | some x =>
    obtain ⟨rt, operand⟩ := x
    rw [expand_of_loaded h]
    obtain ⟨hfirst, hsecond⟩ := Instruction.mnemonic_halves rt operand
    refine .pair h hfirst hsecond ?_
    rintro v rfl
    exact Instruction.loads_halves rt v

theorem link_eq_ok {t : SymbolTable} {e' : Entry Instruction} (h : e.link t = .ok e') :
    ∃ inst, e.item.link t ((addressOf? e.place).getD 0) = .ok inst ∧ e' = { e with item := inst } := by
  unfold link at h
  split at h
  · rename_i inst hinst
    exact ⟨inst, hinst, (Except.ok.inj h).symm⟩
  · cases h

/-- With addresses and the values of labels, what takes the place of an entry does what it says. -/
theorem realizes {t : SymbolTable} {parts : List (Entry Instruction)}
    (hsplits : ∀ rt n, e.item.loaded? = some (rt, .symbol n) → t.Splits n)
    (h : List.Forall₂ (fun e e' => ∃ e₁, Located e e₁ ∧ e₁.link t = .ok e') e.expand parts) :
    e.Realizes t parts := by
  cases hloaded : e.item.loaded? with
  | none =>
    rw [expand_of_loaded_none hloaded] at h
    obtain ⟨e', rest, ⟨e₁, ⟨a, rfl⟩, hlink⟩, hrest, rfl⟩ := List.forall₂_cons_left_iff.1 h
    obtain rfl := List.forall₂_nil_left_iff.1 hrest
    exact .kept hloaded ⟨a, rfl⟩ (Entry.link_linked rfl hlink)
  | some x =>
    obtain ⟨rt, operand⟩ := x
    rw [expand_of_loaded hloaded] at h
    obtain ⟨upper, rest, ⟨_, ⟨a, rfl⟩, hupper⟩, hrest, rfl⟩ := List.forall₂_cons_left_iff.1 h
    obtain ⟨lower, rest', ⟨_, ⟨b, rfl⟩, hlower⟩, hnil, rfl⟩ := List.forall₂_cons_left_iff.1 hrest
    obtain rfl := List.forall₂_nil_left_iff.1 hnil
    obtain ⟨upperInst, hu, rfl⟩ := link_eq_ok hupper
    obtain ⟨lowerInst, hl, rfl⟩ := link_eq_ok hlower
    obtain ⟨v, hv, rfl, rfl⟩ :=
      Instruction.halves_of_link (fun n hn => hsplits rt n (hn ▸ hloaded)) hu hl
    exact .pair hloaded hv (Instruction.loads_halves rt v) rfl rfl rfl rfl

end Entry

/-! ## Programs -/

/-- Every entry of the first segment is related to entries of the second, which has no others and has
them in the same order. -/
def Segment.Unfolds (R : Entry Instruction → List (Entry Instruction) → Prop)
    (s s' : Segment Instruction) : Prop :=
  ∃ parts, List.Forall₂ R s.entries parts ∧ s'.entries = parts.flatten

theorem Segment.unfolds_expand (s : Segment Instruction) : s.Unfolds Entry.Expands s.expand := by
  refine ⟨s.entries.map Entry.expand, ?_, rfl⟩
  rw [List.forall₂_map_right_iff, List.forall₂_same]
  exact fun e _ => e.expands

/-- A segment of machine instructions has nothing to replace. -/
theorem Segment.expand_of_isMachine {s : Segment Instruction}
    (h : ∀ e ∈ s.entries, e.item.IsMachine) : s.expand = s := by
  have hsame : s.entries.flatMap Entry.expand = s.entries.flatMap fun e => [e] :=
    List.flatMap_congr fun e he => Entry.expand_of_loaded_none (Instruction.isMachine_iff.1 (h e he))
  rw [Segment.expand, hsame, List.flatMap_singleton']

namespace Program

variable {w : Windows} {p q : Program} {t : SymbolTable}

/-- A program of machine instructions has nothing to replace. -/
theorem expand_of_isMachine (h : ∀ m, ∀ s ∈ p.text m, ∀ e ∈ s.entries, e.item.IsMachine) :
    p.expand = p := by
  have hsame : ∀ m, (p.text m).map Segment.expand = p.text m := by
    intro m
    conv_rhs => rw [← List.map_id (p.text m)]
    exact List.map_congr_left fun s hs => Segment.expand_of_isMachine (h m s hs)
  have huser : p.userText.map Segment.expand = p.userText := hsame .user
  have hkernel : p.kernelText.map Segment.expand = p.kernelText := hsame .kernel
  rw [expand, huser, hkernel]

/-- A resolved program is the expanded one with addresses and the values of labels. -/
theorem resolve_text_links (h : p.resolve w = .ok (q, t)) (m : Mode) :
    List.Forall₂ (fun s s' => List.Forall₂ (fun e e' => ∃ e₁, Entry.Located e e₁ ∧ e₁.link t = .ok e')
      s.expand.entries s'.entries) (p.text m) (q.text m) := by
  obtain ⟨-, settled, hset, hl⟩ := Program.resolve_eq_ok.1 h
  obtain ⟨t₀, t₁, hm⟩ := (Program.settle_inv hset).1 m
  have hlocated := settle_located hm
  rw [show p.expand.text m = (p.text m).map Segment.expand from p.segments_expand_text m,
    List.forall₂_map_left_iff] at hlocated
  refine forall₂_trans (fun s s₁ s' hs hlink => ?_) hlocated ((Program.link_eq_ok hl).1 m)
  rw [Segment.link, map_eq_ok] at hlink
  obtain ⟨entries, he, rfl⟩ := hlink
  exact forall₂_trans (fun e e₁ e' he he' => ⟨e₁, he, he'⟩) hs (mapM_eq_ok.1 he)

/-- **Pseudo instructions load what they name.** In a program that is read from a source, each entry
with one of the two mnemonics is replaced by an instruction for the upper and one for the lower half,
which load its literal, and all other entries are kept. The halves of a label always fit their
fields: they lack a value only if the label does. When the program is resolved, the two instructions
load the address that the table has for the label. An expanded program has nothing to expand. -/
theorem parse_expand_loads {src : ByteString} (hparse : Program.parse src = .ok p) :
    (∀ m, ∀ s ∈ p.text m, ∀ e ∈ s.entries,
      (e.item.loaded?.isSome ↔ e.item.mnemonic = "la" ∨ e.item.mnemonic = "li")) ∧
    (∀ m, List.Forall₂ (fun s s' => s'.start = s.start ∧ s.Unfolds Entry.Expands s')
      (p.text m) (p.expand.text m)) ∧
    (∀ m, p.expand.data m = p.data m) ∧
    (∀ w settled t, p.expand.settle w = .ok (settled, t) →
      ∀ m, ∀ s ∈ p.text m, ∀ e ∈ s.entries, ∀ rt n, e.item.loaded? = some (rt, .symbol n) →
        ∀ inst ∈ e.item.expand, ∀ source err, inst.link t source = .error err →
          t.lookup n = none ∧ err.kind = .unresolvedLabel) ∧
    (∀ w q t, p.resolve w = .ok (q, t) →
      ∀ m, List.Forall₂ (Segment.Unfolds (Entry.Realizes t)) (p.text m) (q.text m)) ∧
    p.expand.expand = p.expand := by
  have hw := Program.parse_written hparse
  refine ⟨fun m s hs e he => ((hw.text m s hs).items e he).isSome_loaded_iff, fun m => ?_,
    p.segments_expand_data, ?_, ?_, ?_⟩
  · rw [show p.expand.text m = (p.text m).map Segment.expand from p.segments_expand_text m,
      List.forall₂_map_right_iff, List.forall₂_same]
    exact fun s _ => ⟨rfl, s.unfolds_expand⟩
  · intro w settled t hset m s hs e he rt n hloaded inst hinst source err herr
    have hname := ((hw.text m s hs).items e he).isName_of_loaded hloaded
    rw [Instruction.expand_of_loaded hloaded] at hinst
    exact Instruction.link_half_error (hw.splits hset hname) hinst herr
  · intro w q t h m
    obtain ⟨-, settled, hset, -⟩ := Program.resolve_eq_ok.1 h
    refine (forall₂_mem (resolve_text_links h m)).imp fun s s' hss' => ?_
    obtain ⟨hs, -, hentries⟩ := hss'
    obtain ⟨parts, hparts, hflat⟩ := exists_of_forall₂_flatMap hentries
    refine ⟨parts, (forall₂_mem hparts).imp fun e part hpart => ?_, hflat⟩
    obtain ⟨he, -, hlinks⟩ := hpart
    refine Entry.realizes (fun rt n hloaded => ?_) hlinks
    exact hw.splits hset (((hw.text m s hs).items e he).isName_of_loaded hloaded)
  · exact expand_of_isMachine fun m s hs e he => Program.isMachine_of_expand hs he

/-- A source whose pseudo instructions load an address and a negative literal; the last loads nothing,
because its register holds zero. -/
def loadingSource : ByteString :=
  "main: la $a0, list\nnext: li $t0, -2\nli $zero, main\naddu $t0, $t0, $a0\n" ++
    ".data 0x1001FFFC\nlist: .word 1\n"

/-- The lower halves have their highest bit set, which is not extended into the upper halves. -/
theorem parse_expand_loads_negative :
    ∃ p q t, Program.parse loadingSource = .ok p ∧ p.resolve {} = .ok (q, t) ∧
      t.lookup "list" = some 0x1001FFFC ∧
      q.userText.map (·.entries.map (·.item)) =
        [[.immediate .loadUpper .zero ⟨4⟩ 0x1001, .immediate .orImmediate ⟨4⟩ ⟨4⟩ 0xFFFC,
          .immediate .loadUpper .zero ⟨8⟩ 0xFFFF, .immediate .orImmediate ⟨8⟩ ⟨8⟩ 0xFFFE,
          .immediate .loadUpper .zero .zero 0x0A00, .immediate .orImmediate .zero .zero 0,
          .register ⟨0x21⟩ ⟨8⟩ ⟨4⟩ ⟨8⟩ 0]] ∧
      (∀ m, List.Forall₂ (fun s s' => s'.start = s.start ∧ s.Unfolds Entry.Expands s')
        (p.text m) (p.expand.text m)) ∧
      (∀ m, List.Forall₂ (Segment.Unfolds (Entry.Realizes t)) (p.text m) (q.text m)) ∧
      p.expand.expand = p.expand := by
  have hvalues : ((Program.parse loadingSource).toOption.bind fun p =>
      (p.resolve {}).toOption.map fun r =>
        (r.2.lookup "list", r.1.userText.map (·.entries.map (·.item)))) =
      some (some 0x1001FFFC,
        [[.immediate .loadUpper .zero ⟨4⟩ 0x1001, .immediate .orImmediate ⟨4⟩ ⟨4⟩ 0xFFFC,
          .immediate .loadUpper .zero ⟨8⟩ 0xFFFF, .immediate .orImmediate ⟨8⟩ ⟨8⟩ 0xFFFE,
          .immediate .loadUpper .zero .zero 0x0A00, .immediate .orImmediate .zero .zero 0,
          .register ⟨0x21⟩ ⟨8⟩ ⟨4⟩ ⟨8⟩ 0]]) := by decide +kernel
  obtain ⟨p, hp, hvalues⟩ := Option.bind_eq_some_iff.1 hvalues
  obtain ⟨⟨q, t⟩, hq, hvalues⟩ := Option.map_eq_some_iff.1 hvalues
  obtain ⟨hlist, hitems⟩ := Prod.mk.inj hvalues
  have hparse := eq_ok_of_toOption hp
  have hresolve := eq_ok_of_toOption hq
  obtain ⟨-, hexpands, -, -, hrealizes, hfixed⟩ := parse_expand_loads hparse
  exact ⟨p, q, t, hparse, hresolve, hlist, hitems, hexpands, hrealizes _ _ _ hresolve, hfixed⟩

end Program

end MipsAssembler
