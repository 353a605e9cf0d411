import Mathlib.Algebra.Group.Int.Defs
import MipsAssembler.Proofs.Addressing

/-!
# Operands that name labels

What becomes of an operand that names a label once its value is known.

* `IsDistance` is the way from one address to another, the nearer one round the address space. It is
  unique (`IsDistance.unique`) and it is what `wordDistance` counts in words
  (`wordDistance_eq`).
* A field `Reaches` an address if the distance that it holds leads there, or to the next address
  below that is a whole number of words away; `distanceField` gives such a field whenever there is
  one of the width (`distanceField_eq_ok`).
* `Instruction.Linked` lists what an instruction may become, `Entry.Linked` adds that nothing else
  in an entry changes, and `resolve_links` says so of all entries of a program.
-/

namespace MipsAssembler

open ByteString Outcome

/-! ## Distances -/

/-- The number in a field of `bits` bits, of which the highest counts as negative. -/
def signExtend (bits field : Nat) : Int :=
  if field < 2 ^ (bits - 1) then field else field - 2 ^ bits

/-- The way from one address to another, the nearer one round the address space. -/
structure IsDistance (source target : UInt32) (d : Int) : Prop where
  lower : -2 ^ 31 ≤ d
  upper : d < 2 ^ 31
  leads : ((source.toNat : Int) + d) % 2 ^ 32 = target.toNat

theorem toInt_toInt32 (x : UInt32) :
    x.toInt32.toInt = if 2 * x.toNat < 2 ^ 32 then (x.toNat : Int) else x.toNat - 2 ^ 32 := by
  rw [show x.toInt32.toInt = x.toBitVec.toInt from rfl, BitVec.toInt_eq_toNat_cond]
  rfl

theorem isDistance_toInt (source target : UInt32) :
    IsDistance source target (target - source).toInt32.toInt := by
  have hs := source.toNat_lt
  have ht := target.toNat_lt
  have hsub := UInt32.toNat_sub target source
  rw [toInt_toInt32]
  refine ⟨?_, ?_, ?_⟩ <;> split <;> omega

theorem IsDistance.unique {source target : UInt32} {d d' : Int} (h : IsDistance source target d)
    (h' : IsDistance source target d') : d = d' := by
  obtain ⟨hl, hu, hd⟩ := h
  obtain ⟨hl', hu', hd'⟩ := h'
  omega

theorem wordDistance_eq {source target : UInt32} {d : Int} (h : IsDistance source target d) :
    wordDistance source target = d / 4 := by
  rw [wordDistance, (isDistance_toInt source target).unique h]

/-- The bytes by which a distance is more than a whole number of words. -/
theorem IsDistance.emod_four {source target : UInt32} {d : Int} (h : IsDistance source target d) :
    d % 4 = ((target - source).toNat % 4 : Nat) := by
  have hs := source.toNat_lt
  have ht := target.toNat_lt
  have hd := h.leads
  rw [UInt32.toNat_sub]
  omega

/-- A field of `bits` bits leads from one address to another. It counts words, so that it leads to
the target itself if the two addresses agree modulo four. -/
structure Reaches (bits : Nat) (source target : UInt32) (field : Nat) : Prop where
  lt : field < 2 ^ bits
  lands : ((source.toNat : Int) + 4 * signExtend bits field) % 2 ^ 32 =
    ((target.toNat : Int) - ((target - source).toNat % 4 : Nat)) % 2 ^ 32
  exact : source.toNat % 4 = target.toNat % 4 →
    ((source.toNat : Int) + 4 * signExtend bits field) % 2 ^ 32 = target.toNat

theorem natCast_two_pow (n : Nat) : ((2 ^ n : Nat) : Int) = 2 ^ n := by norm_cast

theorem two_pow_eq_two_mul {bits : Nat} (h : 0 < bits) : (2 : Int) ^ bits = 2 * 2 ^ (bits - 1) := by
  obtain ⟨n, rfl⟩ := Nat.exists_eq_succ_of_ne_zero (Nat.pos_iff_ne_zero.1 h)
  rw [Nat.succ_sub_one, Int.pow_succ, Int.mul_comm]

/-- A number that fits is read back from its field. -/
theorem signExtend_emod {bits : Nat} {v : Int} (hb : 0 < bits) (hl : -2 ^ (bits - 1) ≤ v)
    (hu : v < 2 ^ (bits - 1)) : signExtend bits (v % 2 ^ bits).toNat = v := by
  have hp := two_pow_eq_two_mul hb
  have hpos : (0 : Int) < 2 ^ (bits - 1) := Int.pow_pos (by decide)
  have hcast := natCast_two_pow (bits - 1)
  have hmod : v % 2 ^ bits = if 0 ≤ v then v else v + 2 ^ bits := by
    split
    · exact Int.emod_eq_of_lt ‹_› (by omega)
    · rw [← Int.add_emod_right]
      exact Int.emod_eq_of_lt (by omega) (by omega)
  rw [signExtend, hmod]
  split <;> split <;> omega

theorem fitsSigned_iff {bits : Nat} {v : Int} :
    fitsSigned bits v = true ↔ -2 ^ (bits - 1) ≤ v ∧ v < 2 ^ (bits - 1) := by
  rw [fitsSigned, Bool.and_eq_true, decide_eq_true_iff, decide_eq_true_iff, Nat.one_shiftLeft,
    natCast_two_pow, and_comm]

/-- The field of a distance leads where the distance leads, as far as words do. -/
theorem reaches_signedField {bits : Nat} {source target : UInt32} {d : Int} (hb : 0 < bits)
    (hb' : bits ≤ 32) (hd : IsDistance source target d)
    (hfit : -2 ^ (bits - 1) ≤ d / 4 ∧ d / 4 < 2 ^ (bits - 1)) :
    Reaches bits source target (signedField bits (d / 4)).toNat := by
  have hpow : (0 : Int) < 2 ^ bits := Int.pow_pos (by decide)
  have hcast := natCast_two_pow bits
  have hnonneg := Int.emod_nonneg (d / 4) (Int.ne_of_gt hpow)
  have hlt : (d / 4 % 2 ^ bits).toNat < 2 ^ bits := by
    have := Int.emod_lt_of_pos (d / 4) hpow
    omega
  have hfield : (signedField bits (d / 4)).toNat = (d / 4 % 2 ^ bits).toNat := by
    rw [signedField, UInt32.toNat_ofNat', Nat.one_shiftLeft, hcast]
    exact Nat.mod_eq_of_lt (Nat.lt_of_lt_of_le hlt (Nat.pow_le_pow_right (by decide) hb'))
  have hleads := hd.leads
  have hrest := hd.emod_four
  have ht := target.toNat_lt
  rw [hfield]
  refine ⟨hlt, ?_, fun hst => ?_⟩ <;> rw [signExtend_emod hb hfit.1 hfit.2]
  · omega
  · omega

/-- There is a distance field exactly if the distance in words fits. -/
theorem distanceField_eq_ok (mnemonic label : ByteString) {bits : Nat} {source target v : UInt32}
    {d : Int} (hd : IsDistance source target d) :
    distanceField mnemonic label bits source target = .ok v ↔
      (-2 ^ (bits - 1) ≤ d / 4 ∧ d / 4 < 2 ^ (bits - 1)) ∧ v = signedField bits (d / 4) := by
  rw [distanceField, wordDistance_eq hd, ← fitsSigned_iff]
  by_cases hfit : fitsSigned bits (d / 4) = true
  · simp [hfit, eq_comm]
  · simp [hfit]

theorem distanceField_error {mnemonic label : ByteString} {bits : Nat} {source target : UInt32}
    {e : EntryError} (h : distanceField mnemonic label bits source target = .error e) :
    e.kind = .fieldOverflow := by
  rw [distanceField] at h
  split at h
  · cases h
  · obtain rfl := Except.error.inj h
    rfl

theorem distanceField_error_iff (mnemonic label : ByteString) {bits : Nat}
    {source target : UInt32} {d : Int} (hd : IsDistance source target d) :
    (∃ e, distanceField mnemonic label bits source target = .error e) ↔
      ¬(-2 ^ (bits - 1) ≤ d / 4 ∧ d / 4 < 2 ^ (bits - 1)) := by
  constructor
  · rintro ⟨e, he⟩ hfit
    have hok := (distanceField_eq_ok mnemonic label hd).2 ⟨hfit, rfl⟩
    rw [he] at hok
    cases hok
  · intro hfit
    cases hf : distanceField mnemonic label bits source target with
    | error e => exact ⟨e, rfl⟩
    | ok v => exact absurd ((distanceField_eq_ok mnemonic label hd).1 hf).1 hfit

theorem reaches_of_distanceField {mnemonic label : ByteString} {bits : Nat}
    {source target v : UInt32} (hb : 0 < bits) (hb' : bits ≤ 32)
    (h : distanceField mnemonic label bits source target = .ok v) :
    Reaches bits source target v.toNat := by
  have hd := isDistance_toInt source target
  obtain ⟨hfit, rfl⟩ := (distanceField_eq_ok mnemonic label hd).1 h
  exact reaches_signedField hb hb' hd hfit

/-! ## Instructions -/

namespace Instruction

/-- The label that an instruction names. -/
def label? : Instruction → Option ByteString
  | immediateLabel _ _ _ label | jumpLabel _ label => some label
  | _ => none

/-- Is the instruction one of the machine's, up to a label that it names? -/
def IsMachine : Instruction → Prop
  | register .. | jump .. | jumpLabel .. => True
  | immediate op .. | immediateLabel op .. => op.isPseudo = false
  | loadLiteral .. => False

/-- What an instruction at the address `source` becomes if labels have the values in the table. -/
inductive Linked (t : SymbolTable) (source : UInt32) : Instruction → Instruction → Prop
  | branch {op rs rt label target value} (isBranch : op.isBranch = true)
      (bound : t.lookup label = some target) (reaches : Reaches 16 source target value.toNat) :
      Linked t source (immediateLabel op rs rt label) (immediate op rs rt value)
  | value {op rs rt label target value} (isBranch : op.isBranch = false)
      (bound : t.lookup label = some target) (small : target.toNat ≤ 0xFFFF)
      (same : value.toNat = target.toNat) :
      Linked t source (immediateLabel op rs rt label) (immediate op rs rt value)
  | jump {op label target field} (bound : t.lookup label = some target)
      (reaches : Reaches 26 source target field.toNat) :
      Linked t source (jumpLabel op label) (jump op field)
  | unlabelled {inst} (none : inst.label? = none) : Linked t source inst inst

theorem labelValue_eq_ok {t : SymbolTable} {label : ByteString} {target : UInt32} :
    labelValue t label = .ok target ↔ t.lookup label = some target := by
  rw [labelValue]
  split <;> simp_all

theorem immediateField_eq_ok {label : ByteString} {target v : UInt32} :
    immediateField label target = .ok v ↔ target.toNat ≤ 0xFFFF ∧ v = target := by
  rw [immediateField]
  have h16 : 0xFFFF < target ↔ 0xFFFF < target.toNat := UInt32.lt_iff_toNat_lt
  split <;> rename_i h <;> rw [h16] at h
  · exact ⟨nofun, fun ⟨hle, _⟩ => absurd h (Nat.not_lt.2 hle)⟩
  · exact ⟨fun hv => ⟨Nat.not_lt.1 h, (Except.ok.inj hv).symm⟩, fun ⟨_, hv⟩ => hv ▸ rfl⟩

theorem link_linked {t : SymbolTable} {source : UInt32} {inst inst' : Instruction}
    (h : inst.link t source = .ok inst') : Linked t source inst inst' := by
  cases inst with
  | immediateLabel op rs rt label =>
    rw [link] at h
    obtain ⟨target, ht, h⟩ := bind_eq_ok.1 h
    rw [labelValue_eq_ok] at ht
    cases hop : op.isBranch with
    | true =>
      rw [hop, if_pos rfl] at h
      obtain ⟨v, hv, h⟩ := bind_eq_ok.1 h
      obtain rfl := pure_eq_ok.1 h
      have hreach := reaches_of_distanceField (by decide) (by decide) hv
      refine .branch hop ht ?_
      rwa [UInt32.toNat_toUInt16, Nat.mod_eq_of_lt hreach.lt]
    | false =>
      rw [hop, if_neg (by decide)] at h
      obtain ⟨v, hv, h⟩ := bind_eq_ok.1 h
      obtain rfl := pure_eq_ok.1 h
      obtain ⟨hsmall, rfl⟩ := immediateField_eq_ok.1 hv
      refine .value hop ht hsmall ?_
      rw [UInt32.toNat_toUInt16, Nat.mod_eq_of_lt (Nat.lt_succ_of_le hsmall)]
  | jumpLabel op label =>
    rw [link] at h
    obtain ⟨target, ht, h⟩ := bind_eq_ok.1 h
    obtain ⟨v, hv, h⟩ := bind_eq_ok.1 h
    obtain rfl := pure_eq_ok.1 h
    exact .jump (labelValue_eq_ok.1 ht) (reaches_of_distanceField (by decide) (by decide) hv)
  | register | immediate | jump | loadLiteral =>
    obtain rfl := Except.ok.inj h
    exact .unlabelled rfl

theorem isMachine_of_mem_pair {i first second : Instruction} (h : i ∈ [first, second])
    (hfirst : first.IsMachine) (hsecond : second.IsMachine) : i.IsMachine := by
  rcases List.mem_pair.1 h with rfl | rfl
  · exact hfirst
  · exact hsecond

/-- What takes the place of an instruction is of the machine. -/
theorem isMachine_of_mem_expand {inst i : Instruction} (h : i ∈ inst.expand) : i.IsMachine := by
  cases inst with
  | immediate op rs rt value =>
    rw [expand] at h
    split at h <;> rename_i hop
    · exact isMachine_of_mem_pair h rfl rfl
    · obtain rfl := List.mem_singleton.1 h
      exact Bool.eq_false_iff.2 hop
  | immediateLabel op rs rt label =>
    rw [expand] at h
    split at h <;> rename_i hop
    · exact isMachine_of_mem_pair h rfl rfl
    · obtain rfl := List.mem_singleton.1 h
      exact Bool.eq_false_iff.2 hop
  | loadLiteral op rt value => exact isMachine_of_mem_pair h rfl rfl
  | register | jump | jumpLabel =>
    obtain rfl := List.mem_singleton.1 h
    trivial

/-- Once its label has its value, an instruction of the machine can be encoded. -/
theorem Linked.isResolved {t : SymbolTable} {source : UInt32} {inst inst' : Instruction}
    (h : Linked t source inst inst') (hm : inst.IsMachine) : inst'.isResolved = true := by
  cases h with
  | branch | value => simpa [Instruction.isResolved, IsMachine] using hm
  | jump => rfl
  | unlabelled hn => cases inst <;> simp_all [Instruction.isResolved, IsMachine, label?]

end Instruction

/-! ## Programs -/

/-- The second entry is the first with the value of its label in place. -/
structure Entry.Linked (t : SymbolTable) (e e' : Entry Instruction) : Prop where
  place : e'.place = e.place
  line : e'.line = e.line
  item : ∃ a, addressOf? e.place = some a ∧ Instruction.Linked t a e.item e'.item

theorem Entry.link_linked {t : SymbolTable} {e e' : Entry Instruction} {a : UInt32}
    (ha : addressOf? e.place = some a) (h : e.link t = .ok e') : Entry.Linked t e e' := by
  rw [Entry.link, ha, Option.getD_some] at h
  split at h
  · obtain rfl := Except.ok.inj h
    exact ⟨rfl, rfl, a, ha, Instruction.link_linked ‹_›⟩
  · cases h

/-- The second segment is the first with the values of labels in place. -/
structure Segment.Linked (t : SymbolTable) (s s' : Segment Instruction) : Prop where
  start : s'.start = s.start
  entries : List.Forall₂ (Entry.Linked t) s.entries s'.entries

theorem Segment.link_linked {t : SymbolTable} {s s' : Segment Instruction}
    (ha : ∀ e ∈ s.entries, ∃ a, addressOf? e.place = some a) (h : s.link t = .ok s') :
    Segment.Linked t s s' := by
  rw [Segment.link, map_eq_ok] at h
  obtain ⟨entries, he, rfl⟩ := h
  refine ⟨rfl, ?_⟩
  have hmem := (List.forall₂_and_left ..).2 ⟨ha, mapM_eq_ok.1 he⟩
  refine hmem.imp fun e e' => ?_
  rintro ⟨⟨a, hadr⟩, hl⟩
  exact Entry.link_linked hadr hl

theorem Program.link_eq_ok {t : SymbolTable} {p q : Program} (h : p.link t = .ok q) :
    (∀ m, List.Forall₂ (fun s s' => Segment.link t s = .ok s') (p.text m) (q.text m)) ∧
      ∀ m, q.data m = p.data m := by
  rw [Program.link] at h
  obtain ⟨userText, hu, h⟩ := bind_eq_ok.1 h
  obtain ⟨kernelText, hk, h⟩ := bind_eq_ok.1 h
  obtain rfl := pure_eq_ok.1 h
  constructor
  · rintro (_ | _)
    · exact mapM_eq_ok.1 hu
    · exact mapM_eq_ok.1 hk
  · rintro (_ | _) <;> rfl

theorem Program.link_linked {t : SymbolTable} {p q : Program} (h : p.link t = .ok q)
    (ha : ∀ m, ∀ s ∈ p.text m, ∀ e ∈ s.entries, ∃ a, addressOf? e.place = some a) (m : Mode) :
    List.Forall₂ (Segment.Linked t) (p.text m) (q.text m) := by
  have hmem := (List.forall₂_and_left ..).2 ⟨ha m, (Program.link_eq_ok h).1 m⟩
  exact hmem.imp fun s s' ⟨hs, hl⟩ => Segment.link_linked hs hl

theorem Program.resolve_data_addressed {w : Windows} {p q : Program} {t : SymbolTable}
    (h : p.resolve w = .ok (q, t)) (m : Mode) :
    ∀ s ∈ q.data m, ∀ e ∈ s.entries, ∃ a, addressOf? e.place = some a := by
  obtain ⟨-, settled, hs, hl⟩ := Program.resolve_eq_ok.1 h
  rw [(Program.link_eq_ok hl).2 m]
  exact (Program.settle_addressed hs).2 m

/-- The entries in the place of an entry hold what its item expands to. -/
theorem Entry.item_mem_of_mem_expand {e e' : Entry Instruction} (h : e' ∈ e.expand) :
    e'.item ∈ e.item.expand := by
  rw [Entry.expand] at h
  split at h <;> rename_i hx
  · simp at h
  · rw [hx]
    rcases List.mem_cons.1 h with rfl | hrest
    · simp
    · obtain ⟨i, hi, rfl⟩ := List.mem_map.1 hrest
      simp [hi]

/-- An entry of the expanded program holds a part of what an entry of the program expands to. -/
theorem Program.exists_of_mem_expand {p : Program} {m : Mode} {s : Segment Instruction}
    (hs : s ∈ p.expand.text m) {e : Entry Instruction} (he : e ∈ s.entries) :
    ∃ s₀ ∈ p.text m, ∃ e₀ ∈ s₀.entries, e.item ∈ e₀.item.expand := by
  have htext : p.expand.text m = (p.text m).map Segment.expand := by cases m <;> rfl
  obtain ⟨s₀, hs₀, rfl⟩ := List.mem_map.1 (htext ▸ hs)
  obtain ⟨e₀, he₀, he⟩ := List.mem_flatMap.1 he
  exact ⟨s₀, hs₀, e₀, he₀, Entry.item_mem_of_mem_expand he⟩

theorem Program.isMachine_of_expand {p : Program} {m : Mode} {s : Segment Instruction}
    (hs : s ∈ p.expand.text m) {e : Entry Instruction} (he : e ∈ s.entries) :
    e.item.IsMachine := by
  obtain ⟨s₀, -, e₀, -, hmem⟩ := Program.exists_of_mem_expand hs he
  exact Instruction.isMachine_of_mem_expand hmem

/-- **Operands that name labels get what they name.** A program that resolves is the expanded
program with addresses, in which each instruction that names a label holds the distance to it or
its value and all else is as it was; what is left are instructions of the machine. A distance field
is missing exactly if the distance in words, rounded down, does not fit. -/
theorem Program.resolve_links :
    (∀ (w : Windows) (p q : Program) (t : SymbolTable), p.resolve w = .ok (q, t) →
      (∃ settled, p.expand.settle w = .ok (settled, t) ∧
        (∀ m, List.Forall₂ (fun s s' => List.Forall₂ Entry.Located s.entries s'.entries)
          (p.expand.text m) (settled.text m)) ∧
        (∀ m, List.Forall₂ (Segment.Linked t) (settled.text m) (q.text m)) ∧
        ∀ m, q.data m = settled.data m) ∧
      ∀ m, ∀ s ∈ q.text m, ∀ e ∈ s.entries, e.item.isResolved = true) ∧
    ∀ (mnemonic label : ByteString) (bits : Nat) (source target : UInt32),
      ∃ d, IsDistance source target d ∧
        ((∃ e, distanceField mnemonic label bits source target = .error e) ↔
          ¬(-2 ^ (bits - 1) ≤ d / 4 ∧ d / 4 < 2 ^ (bits - 1))) ∧
        ∀ e, distanceField mnemonic label bits source target = .error e →
          e.kind = .fieldOverflow := by
  refine ⟨fun w p q t h => ?_, fun mnemonic label bits source target =>
    ⟨_, isDistance_toInt source target, distanceField_error_iff mnemonic label (isDistance_toInt ..),
      fun e => distanceField_error⟩⟩
  obtain ⟨-, settled, hs, hl⟩ := Program.resolve_eq_ok.1 h
  have hlocated : ∀ m, List.Forall₂
      (fun s s' => List.Forall₂ Entry.Located s.entries s'.entries)
      (p.expand.text m) (settled.text m) := fun m => by
    obtain ⟨t₀, t₁, hm⟩ := (Program.settle_inv hs).1 m
    exact settle_located hm
  have hlinked := Program.link_linked hl (Program.settle_addressed hs).1
  refine ⟨⟨settled, hs, hlocated, hlinked, (Program.link_eq_ok hl).2⟩, fun m s' hs' e' he' => ?_⟩
  -- back from the linked entry to the one that it stood for in the expanded program
  obtain ⟨s₁, hs₁, hseg⟩ := exists_of_mem_right (hlinked m) hs'
  obtain ⟨e₁, he₁, hlink⟩ := exists_of_mem_right hseg.entries he'
  obtain ⟨s₀, hs₀, hentries⟩ := exists_of_mem_right (hlocated m) hs₁
  obtain ⟨e₀, he₀, a, rfl⟩ := exists_of_mem_right hentries he₁
  obtain ⟨b, -, hitem⟩ := hlink.item
  have hmachine := Program.isMachine_of_expand hs₀ he₀
  exact hitem.isResolved hmachine

/-- A loop that a branch and a jump lead back to; it begins with a pseudo instruction. -/
def loopProgram : Program where
  userText := [{ start := some {}, entries :=
    [{ place := some { labels := ["loop"] }, item := .loadLiteral ⟨0x42⟩ ⟨8⟩ 0x12345678, line := 1 },
     { place := none, item := .immediateLabel ⟨0x04⟩ ⟨8⟩ .zero "loop", line := 2 },
     { place := none, item := .jumpLabel ⟨0x02⟩ "loop", line := 3 }] }]

/-- Both ways back count the two words of the pseudo instruction. -/
theorem Program.resolve_links_loop :
    ∃ q t, loopProgram.resolve {} = .ok (q, t) ∧
      q.userText.map (·.entries.map (·.item)) =
        [[.immediate .loadUpper .zero ⟨8⟩ 0x1234, .immediate .orImmediate ⟨8⟩ ⟨8⟩ 0x5678,
          .immediate ⟨0x04⟩ ⟨8⟩ .zero 0xFFFE, .jump ⟨0x02⟩ 0x3FFFFFD]] ∧
      ∀ m, ∀ s ∈ q.text m, ∀ e ∈ s.entries, e.item.isResolved = true := by
  have h : (loopProgram.resolve {}).toOption.map
      (fun r => r.1.userText.map (·.entries.map (·.item))) =
      some [[.immediate .loadUpper .zero ⟨8⟩ 0x1234, .immediate .orImmediate ⟨8⟩ ⟨8⟩ 0x5678,
        .immediate ⟨0x04⟩ ⟨8⟩ .zero 0xFFFE, .jump ⟨0x02⟩ 0x3FFFFFD]] := by decide +kernel
  cases hr : loopProgram.resolve {} with
  | error e => simp [hr, Except.toOption] at h
  | ok r =>
    rw [hr] at h
    exact ⟨r.1, r.2, rfl, Option.some.inj h, (Program.resolve_links.1 _ _ _ _ hr).2⟩

end MipsAssembler
