import Mathlib.Algebra.Group.Nat.Defs
import MipsAssembler.Proofs.MachineWord
import MipsAssembler.Proofs.PlainText
import MipsAssembler.Proofs.Settlement

/-!
# What a source can say

Not every program can be written as a source. In one that is read from a source all labels are
names, no segment asks for the address zero, and the instructions are such as can be read
(`Program.parse_written`); these are known ones whose fields fit (`Instruction.Readable.known`). The
lines of the source add to a draft, and each of them keeps this up (`Draft.Sound.applyLine`), whether
it is right or wrong.

A name holds no `@`, so that the labels of a source have names in common only if they are the same
(`Program.Written.apart_iff`).
-/

namespace MipsAssembler

open ByteString Outcome

variable {α : Type}

/-! ## Instructions -/

/-- A code that is found by a mnemonic is in the table. -/
theorem OpcodeTable.isSome_lookup_of_code? {t : OpcodeTable} {mnemonic : ByteString} {c : UInt8}
    (h : t.code? mnemonic = some c) : (t.lookup c).isSome := by
  rw [OpcodeTable.code?, Option.map_eq_some_iff] at h
  obtain ⟨entry, hfind, rfl⟩ := h
  have hmem := List.mem_of_find?_eq_some hfind
  rw [Option.isSome_iff_ne_none, Ne, List.lookup_eq_none_iff]
  intro hnone
  simpa using hnone entry hmem

theorem readLiteral_bounds {low high v : Int} {s : ByteString}
    (h : readLiteral low high s = .ok v) : low ≤ v ∧ v ≤ high := by
  simp only [readLiteral] at h
  split at h
  · cases h
  split at h
  · cases h
  · obtain rfl := Except.ok.inj h
    omega

namespace Instruction

/-- Its operation is in the tables and its fields fit. -/
def Known : Instruction → Prop
  | register f _ _ _ shift => f.operation?.isSome ∧ shift.toNat < 2 ^ 5
  | immediate op .. | immediateLabel op .. => op.operation?.isSome
  | jump op target => op.operation?.isSome ∧ target.toNat < 2 ^ 26
  | jumpLabel op _ => op.operation?.isSome
  | loadLiteral .. => True

/-- A shift amount that is read fits its field. -/
theorem readSlot_shift {mnemonic text : ByteString} {o o' : Operands} {slot : Slot}
    (h : readSlot mnemonic o slot text = .ok o') (ho : o.shift.toNat < 2 ^ 5) :
    o'.shift.toNat < 2 ^ 5 := by
  cases slot with
  | shift =>
    simp only [readSlot] at h
    split at h
    · rename_i v hv
      obtain rfl := Except.ok.inj h
      obtain ⟨hlow, hhigh⟩ := readLiteral_bounds hv
      simp only [UInt8.ofInt, UInt8.toNat_ofNat']
      omega
    · cases h
  | rd | rs | rt | immediate | label | memory | value | target =>
    simp only [readSlot, map_eq_ok] at h
    obtain ⟨-, -, rfl⟩ := h
    exact ho

theorem readSlots_shift {mnemonic : ByteString} {slots : List Slot} {fields : List ByteString}
    {o : Operands} (h : readSlots mnemonic slots fields = .ok o) :
    o.shift.toNat < 2 ^ 5 := by
  rw [readSlots] at h
  split at h
  · refine foldlM_keeps (fun o => o.shift.toNat < 2 ^ 5) ?_ h (by decide)
    rintro o ⟨slot, text⟩ o' - ho hslot
    exact readSlot_shift hslot ho
  · split at h <;> cases h

/-- A jump target that is read fits its field. -/
theorem readTarget_lt {text : ByteString} {v : UInt32} (h : readTarget text = .ok (.number v)) :
    v.toNat < 2 ^ 26 := by
  rw [readTarget] at h
  obtain ⟨operand, -, h⟩ := bind_eq_ok.1 h
  cases operand with
  | symbol name => simp [pure_eq_ok] at h
  | number u =>
    obtain rfl := Operand.number.inj (pure_eq_ok.1 h)
    rw [UInt32.toNat_mod]
    exact Nat.mod_lt _ (by decide)

/-- Reading into the only slot of a jump. -/
theorem readSlots_target {mnemonic : ByteString} {fields : List ByteString} {o : Operands}
    (h : readSlots mnemonic [.target] fields = .ok o) {v : UInt32} (hv : o.operand = .number v) :
    v.toNat < 2 ^ 26 := by
  rw [readSlots] at h
  split at h
  · rename_i hlength
    obtain ⟨text, rfl⟩ := List.length_eq_one_iff.1 hlength
    simp only [List.zip_cons_cons, List.zip_nil_right, List.foldlM_cons, List.foldlM_nil] at h
    obtain ⟨o', ho', h⟩ := bind_eq_ok.1 h
    obtain rfl := pure_eq_ok.1 h
    simp only [readSlot, map_eq_ok] at ho'
    obtain ⟨operand, hread, rfl⟩ := ho'
    obtain rfl : operand = .number v := hv
    exact readTarget_lt hread
  · split at h <;> cases h

theorem parseRegister_known {f : Funct} {fields : List ByteString} {inst : Instruction}
    (hf : f.operation?.isSome) (h : parseRegister f fields = .ok inst) : inst.Known := by
  rw [parseRegister, map_eq_ok] at h
  obtain ⟨o, ho, rfl⟩ := h
  exact ⟨hf, readSlots_shift ho⟩

theorem parseImmediate_known {op : ImmediateOp} {fields : List ByteString} {inst : Instruction}
    (hop : op.operation?.isSome) (h : parseImmediate op fields = .ok inst) : inst.Known := by
  rw [parseImmediate, map_eq_ok] at h
  obtain ⟨o, -, rfl⟩ := h
  cases o.operand with
  | symbol name => exact hop
  | number v =>
    dsimp only
    split
    · trivial
    · exact hop

theorem parseJump_known {op : JumpOp} {fields : List ByteString} {inst : Instruction}
    (hop : op.operation?.isSome) (h : parseJump op fields = .ok inst) : inst.Known := by
  rw [parseJump, map_eq_ok] at h
  obtain ⟨o, ho, rfl⟩ := h
  cases hoperand : o.operand with
  | symbol name => exact hop
  | number v => exact ⟨hop, readSlots_target ho hoperand⟩

/-- An instruction that is read does nothing or is read with an operation of one of the tables. -/
theorem parse_inv {s : ByteString} {inst : Instruction} (h : parse s = .ok inst) :
    inst = nop ∨
      (∃ (f : Funct) (fields : List ByteString),
        f.operation?.isSome ∧ parseRegister f fields = .ok inst) ∨
      (∃ (op : ImmediateOp) (fields : List ByteString),
        op.operation?.isSome ∧ parseImmediate op fields = .ok inst) ∨
      ∃ (op : JumpOp) (fields : List ByteString),
        op.operation?.isSome ∧ parseJump op fields = .ok inst := by
  simp only [parse] at h
  split at h
  · obtain ⟨-, -, rfl⟩ := map_eq_ok.1 h
    exact .inl rfl
  split at h
  · rename_i f hf
    obtain ⟨c, hc, rfl⟩ := Option.map_eq_some_iff.1 hf
    exact .inr (.inl ⟨_, _, OpcodeTable.isSome_lookup_of_code? hc, h⟩)
  split at h
  · rename_i op hop
    obtain ⟨c, hc, rfl⟩ := Option.map_eq_some_iff.1 hop
    exact .inr (.inr (.inl ⟨_, _, OpcodeTable.isSome_lookup_of_code? hc, h⟩))
  split at h
  · rename_i op hop
    obtain ⟨c, hc, rfl⟩ := Option.map_eq_some_iff.1 hop
    exact .inr (.inr (.inr ⟨_, _, OpcodeTable.isSome_lookup_of_code? hc, h⟩))
  · cases h

/-- Some text is read as the instruction. -/
def Readable (inst : Instruction) : Prop := ∃ text, parse text = .ok inst

/-- An instruction that is read is known. -/
theorem Readable.known {inst : Instruction} (h : inst.Readable) : inst.Known := by
  obtain ⟨text, h⟩ := h
  obtain rfl | ⟨f, fields, hf, h⟩ | ⟨op, fields, hop, h⟩ | ⟨op, fields, hop, h⟩ := parse_inv h
  · exact ⟨by decide, by decide⟩
  · exact parseRegister_known hf h
  · exact parseImmediate_known hop h
  · exact parseJump_known hop h

end Instruction

/-! ## Segments and programs -/

/-- Labels are names, the start is not the address zero, and the items satisfy a condition. -/
structure Segment.Written (Item : α → Prop) (s : Segment α) : Prop where
  start : addressOf? s.start ≠ some 0
  names : ∀ e ∈ s.entries, ∀ n ∈ labelsOf e.place, isName n = true
  items : ∀ e ∈ s.entries, Item e.item

/-- A program as a source can write it. -/
structure Program.Written (p : Program) : Prop where
  text : ∀ m, ∀ s ∈ p.text m, s.Written Instruction.Readable
  data : ∀ m, ∀ s ∈ p.data m, s.Written fun _ => True

theorem mem_addToLast {e : Entry α} {segments : List (Segment α)} {s : Segment α}
    (h : s ∈ addToLast e segments) :
    s ∈ segments ∨ ∃ s₀ ∈ segments, s = { s₀ with entries := s₀.entries ++ [e] } := by
  fun_induction addToLast e segments with
  | case1 => exact .inl h
  | case2 s₀ => exact .inr ⟨s₀, by simp, List.mem_singleton.1 h⟩
  | case3 s₀ rest hne ih =>
    rcases List.mem_cons.1 h with rfl | h
    · exact .inl (by simp)
    · rcases ih h with hmem | ⟨s₁, hs₁, rfl⟩
      · exact .inl (by simp [hmem])
      · exact .inr ⟨s₁, by simp [hs₁], rfl⟩

namespace Segment.Written

variable {Item : α → Prop} {segments : List (Segment α)}

theorem addToLast (h : ∀ s ∈ segments, s.Written Item) {e : Entry α}
    (hnames : ∀ n ∈ labelsOf e.place, isName n = true) (hitem : Item e.item) :
    ∀ s ∈ MipsAssembler.addToLast e segments, s.Written Item := by
  intro s hs
  rcases mem_addToLast hs with hs | ⟨s₀, hs₀, rfl⟩
  · exact h s hs
  · refine ⟨(h s₀ hs₀).start, fun e' he' => ?_, fun e' he' => ?_⟩ <;>
      rcases List.mem_append.1 he' with he' | he'
    · exact (h s₀ hs₀).names e' he'
    · exact List.mem_singleton.1 he' ▸ hnames
    · exact (h s₀ hs₀).items e' he'
    · exact List.mem_singleton.1 he' ▸ hitem

theorem append_empty (h : ∀ s ∈ segments, s.Written Item) {start : Option UInt32}
    (hstart : start ≠ some 0) :
    ∀ s ∈ segments ++ [{ start := some { address := start } }], s.Written Item := by
  intro s hs
  rcases List.mem_append.1 hs with hs | hs
  · exact h s hs
  · obtain rfl := List.mem_singleton.1 hs
    exact ⟨hstart, by simp, by simp⟩

end Segment.Written

namespace Program.Written

variable {p : Program}

theorem empty : Written {} where
  text := by rintro (_ | _) <;> simp [Program.text]
  data := by rintro (_ | _) <;> simp [Program.data]

theorem mapText (h : p.Written) (m : Mode)
    {f : List (Segment Instruction) → List (Segment Instruction)}
    (hf : ∀ s ∈ f (p.text m), s.Written Instruction.Readable) : (p.mapText f m).Written := by
  refine ⟨fun m' => ?_, p.data_mapText f m ▸ h.data⟩
  rw [Program.text_mapText]
  split
  · exact hf
  · exact h.text m'

theorem mapData (h : p.Written) (m : Mode) {f : List (Segment Payload) → List (Segment Payload)}
    (hf : ∀ s ∈ f (p.data m), s.Written fun _ => True) : (p.mapData f m).Written := by
  refine ⟨p.text_mapData f m ▸ h.text, fun m' => ?_⟩
  rw [Program.data_mapData]
  split
  · exact hf
  · exact h.data m'

theorem openSegment (h : p.Written) (k : Category) {start : Option UInt32}
    (hstart : start ≠ some 0) : (p.openSegment k start).Written := by
  cases k with
  | text m =>
    rw [Program.openSegment]
    refine h.mapText m ?_
    exact Segment.Written.append_empty (h.text m) hstart
  | data m =>
    rw [Program.openSegment]
    refine h.mapData m ?_
    exact Segment.Written.append_empty (h.data m) hstart

theorem addText (h : p.Written) (m : Mode) {e : Entry Instruction}
    (hnames : ∀ n ∈ labelsOf e.place, isName n = true) (hitem : e.item.Readable) :
    (p.addText m e).Written :=
  h.mapText m (Segment.Written.addToLast (h.text m) hnames hitem)

theorem addData (h : p.Written) (m : Mode) {e : Entry Payload}
    (hnames : ∀ n ∈ labelsOf e.place, isName n = true) : (p.addData m e).Written :=
  h.mapData m (Segment.Written.addToLast (h.data m) hnames trivial)

end Program.Written

/-! ## Drafts -/

namespace Draft

/-- A draft as the lines of a source make it. -/
structure Sound (d : Draft) : Prop where
  program : d.program.Written
  pending : ∀ n ∈ d.pending, isName n = true

/-- A segment directive does not ask for the address zero. -/
theorem startAddress_ne_zero {name arguments : ByteString} {start : Option UInt32}
    (h : startAddress name arguments = .ok start) : start ≠ some 0 := by
  rw [startAddress] at h
  split at h
  · obtain rfl := Except.ok.inj h
    simp
  · split at h
    · rename_i v hv
      obtain rfl := Except.ok.inj h
      obtain ⟨hlow, hhigh⟩ := readLiteral_bounds hv
      intro hzero
      have hnat := congrArg UInt32.toNat (Option.some.inj hzero)
      simp only [UInt32.ofInt, UInt32.toNat_ofNat', UInt32.toNat_zero] at hnat
      omega
    · cases h

namespace Sound

variable {d : Draft}

theorem nextPlace (h : d.Sound) : ∀ n ∈ labelsOf d.nextPlace, isName n = true := by
  rw [Draft.nextPlace]
  split
  · simp [labelsOf]
  · exact h.pending

theorem openSegment (h : d.Sound) (k : Category) {start : Option UInt32}
    (hstart : start ≠ some 0) : (d.openSegment k start).Sound :=
  ⟨h.program.openSegment k hstart, h.pending⟩

theorem padTo (h : d.Sound) (align : UInt32) (line : Int) : (d.padTo align line).Sound := by
  rw [Draft.padTo]
  split
  · split
    · exact h
    · exact ⟨h.program.addData _ (by simp [labelsOf]), h.pending⟩
  · exact h

theorem addPayload (h : d.Sound) (p : Payload) (line : Int) : (d.addPayload p line).Sound := by
  rw [Draft.addPayload]
  split
  · exact ⟨h.program.addData _ h.nextPlace, by simp⟩
  · exact h

theorem applySegment (h : d.Sound) (k : Category) (name arguments : ByteString) :
    (d.applySegment k name arguments).1.Sound := by
  rw [Draft.applySegment]
  split
  · split
    · rename_i start hstart
      exact h.openSegment k (startAddress_ne_zero hstart)
    · exact h
  · exact ⟨h.program, by simp⟩

theorem applyAlign (h : d.Sound) (arguments : ByteString) (line : Int) :
    (d.applyAlign arguments line).1.Sound := by
  rw [Draft.applyAlign]
  split
  · exact h
  · split
    · exact h.padTo ..
    · split <;> exact h

theorem applyData (h : d.Sound) (directive : Option Directive) (name arguments : ByteString)
    (line : Int) : (d.applyData directive name arguments line).1.Sound := by
  rw [Draft.applyData]
  split
  · split
    · exact (h.padTo ..).addPayload ..
    · exact h
  · exact h

theorem applyInstruction (h : d.Sound) (text : ByteString) (line : Int) :
    (d.applyInstruction text line).1.Sound := by
  -- the segment that takes the instruction may have been opened for it
  have hadd {d' : Draft} (h' : d'.Sound) (m : Mode) {inst : Instruction}
      (hinst : Instruction.parse text = .ok inst) :
      Sound { d' with
        pending := []
        program := d'.program.addText m { place := d'.nextPlace, item := inst, line } } :=
    ⟨h'.program.addText m h'.nextPlace ⟨text, hinst⟩, by simp⟩
  have hopen : (d.openSegment (.text .user) none).Sound := h.openSegment _ (by simp)
  rw [Draft.applyInstruction]
  split
  · exact h
  · dsimp only
    split
    · exact hadd h _ ‹_›
    · exact ⟨h.program, by simp⟩
  · dsimp only
    split
    · exact hadd hopen _ ‹_›
    · exact ⟨hopen.program, by simp⟩

theorem apply (h : d.Sound) (line : Int) (statement : Statement) :
    (d.apply line statement).1.Sound := by
  cases statement with
  | instruction text => exact h.applyInstruction ..
  | directive name arguments =>
    rw [Draft.apply]
    split
    · exact h.applySegment ..
    · exact h
    · exact h.applyAlign ..
    · exact h.applyData ..

/-- Every line keeps a draft sound. -/
theorem applyLine (h : d.Sound) (line : Int) (text : ByteString) :
    (d.applyLine line text).1.Sound := by
  rw [Draft.applyLine]
  split
  · exact h
  · rename_i labels rest hlabels
    have hlabelled : Sound { d with pending := d.pending ++ labels } := by
      refine ⟨h.program, fun n hn => ?_⟩
      rcases List.mem_append.1 hn with hn | hn
      · exact h.pending n hn
      · exact (splitLabels_eq_ok.1 hlabels).isName n hn
    dsimp only
    split
    · exact hlabelled
    · exact hlabelled.apply ..

end Sound

end Draft

theorem Reading.sound_step {r : Reading} (h : r.draft.Sound) (raw : ByteString) (number : Nat) :
    (r.step raw number).draft.Sound := by
  simp only [Reading.step]
  split
  · exact h
  · exact h.applyLine ..

theorem Reading.sound_ofSource (src : ByteString) : (Reading.ofSource src).draft.Sound := by
  rw [Reading.ofSource]
  refine List.foldlRecOn (motive := fun r : Reading => r.draft.Sound) _ _
    ⟨Program.Written.empty, by simp⟩ ?_
  rintro r h ⟨raw, number⟩ -
  exact Reading.sound_step h ..

/-- A program that is read from a source is as a source can write it. -/
theorem Program.parse_written {src : ByteString} {p : Program} (h : Program.parse src = .ok p) :
    p.Written := by
  simp only [Program.parse] at h
  split at h
  · obtain rfl := Except.ok.inj h
    exact (Reading.sound_ofSource src).program
  · cases h

/-! ## Names -/

theorem forall_mem_of_isName {n : ByteString} (h : isName n = true) :
    ∀ b ∈ n, (isNameStart b || isDigit b) = true := by
  cases n with
  | nil => simp
  | cons b bs =>
    simp only [isName, Bool.and_eq_true, List.all_eq_true] at h
    exact List.forall_mem_cons.2 ⟨by rw [h.1, Bool.true_or], h.2⟩

theorem not_mem_of_isName {n : ByteString} (h : isName n = true) : ascii '@' ∉ n :=
  fun hmem => absurd (forall_mem_of_isName h _ hmem) (by decide)

/-- What holds no `@` does not end like half of an address. -/
theorem isHalf_of_notMem {s : ByteString} (h : ascii '@' ∉ s) : isHalf s = false := by
  have hending : ∀ ending : ByteString, ascii '@' ∈ ending → ending.isSuffixOf s = false := by
    intro ending hmem
    refine Bool.eq_false_iff.2 fun hsuffix => ?_
    exact h ((List.isSuffixOf_iff_suffix.1 hsuffix).subset hmem)
  rw [isHalf, hending _ (by decide), hending _ (by decide), Bool.or_self]

/-- Names have something in common only if they are the same. -/
theorem namesApart_iff {n m : ByteString} (hn : isName n = true) (hm : isName m = true) :
    NamesApart n m ↔ n ≠ m := by
  have hupper : ascii '@' ∈ upperEnding := by decide
  have hlower : ascii '@' ∈ lowerEnding := by decide
  have hn' := not_mem_of_isName hn
  have hm' := not_mem_of_isName hm
  constructor
  · rintro h rfl
    exact h n (by simp [namesOf]) (by simp [namesOf])
  · intro hne x hxn hxm
    simp only [namesOf, List.mem_cons, List.not_mem_nil, or_false] at hxn hxm
    rcases hxn with rfl | rfl | rfl <;> rcases hxm with h | h | h
    · exact hne h
    · exact hn' (h ▸ List.mem_append_right _ hupper)
    · exact hn' (h ▸ List.mem_append_right _ hlower)
    · exact hm' (h ▸ List.mem_append_right _ hupper)
    · exact hne (List.append_cancel_right h)
    · exact append_upperEnding_ne n m h
    · exact hm' (h ▸ List.mem_append_right _ hlower)
    · exact append_upperEnding_ne m n h.symm
    · exact hne (List.append_cancel_right h)

namespace Program.Written

variable {p : Program}

theorem isName_of_mem_labels (h : p.Written) {n : ByteString} (hn : n ∈ p.labels) :
    isName n = true := by
  obtain ⟨k, -, hk⟩ := List.mem_flatMap.1 hn
  obtain ⟨s, hs, hn⟩ := List.mem_flatMap.1 hk
  obtain ⟨e, he, hn⟩ := List.mem_flatMap.1 hn
  cases k with
  | text m => exact (h.text m s hs).names e he n hn
  | data m => exact (h.data m s hs).names e he n hn

/-- In a program from a source no name comes with two labels exactly if no label occurs twice. -/
theorem apart_iff (h : p.Written) : p.labels.Pairwise NamesApart ↔ p.labels.Nodup := by
  refine List.Pairwise.iff_of_mem fun {n m} hn hm => ?_
  exact namesApart_iff (h.isName_of_mem_labels hn) (h.isName_of_mem_labels hm)

end Program.Written

end MipsAssembler
