import MipsAssembler.CommandLine.Options
import MipsAssembler.Program.Loading
import MipsAssembler.Proofs.FlatMemory
import MipsAssembler.Proofs.Occupancy

/-!
# What a memory image holds

A program is loaded by writing the bytes of its entries, one entry after the other. Every way to
write to an image is a `Write` to the flat memory that it refines (`storeInstruction_write`,
`storePayload_write`), so that the image of a program refines a run of writes
(`Program.load_writes`). The blocks of the writes are those of the entries, and these are apart:
no write undoes another (`Write.run_of_covers`), and where no entry is, nothing is written
(`Write.run_of_not_covers`). `assemble_image` draws the conclusion for whole programs.
-/

namespace MipsAssembler

open ByteString Outcome PagedMemory

/-! ## Payloads -/

namespace Payload

theorem length_overwrite? {buffer bs out : ByteString} {start : Nat}
    (h : overwrite? buffer start bs = some out) : out.length = buffer.length := by
  rw [overwrite?] at h
  split at h
  · obtain rfl := Option.some.inj h
    rw [List.length_append, List.length_append, List.length_take, List.length_drop]
    omega
  · cases h

theorem length_foldlM {α : Type} {f : ByteString → α → Option ByteString}
    (step : ∀ buffer a out, f buffer a = some out → out.length = buffer.length) {l : List α}
    {buffer out : ByteString} (h : l.foldlM f buffer = some out) : out.length = buffer.length := by
  induction l generalizing buffer with
  | nil => rw [Option.some.inj h]
  | cons a l ih =>
    obtain ⟨next, hnext, h⟩ := Option.bind_eq_some_iff.1 h
    rw [ih h, step buffer a next hnext]

theorem length_encodeCells? {width : Nat} {cell total : UInt32} {values : List Nat}
    {bs : ByteString} (h : encodeCells? width cell total values = some bs) :
    bs.length = total.toNat := by
  rw [encodeCells?] at h
  rw [length_foldlM (fun _ _ _ => length_overwrite?) h, List.length_replicate]

/-- The encoding of a payload has as many bytes as its size says. -/
theorem length_encode? {p : Payload} {bs : ByteString} (h : p.encode? = some bs) :
    bs.length = p.size.toNat := by
  cases p with
  | bytes | halves | words => exact length_encodeCells? h
  | text chars terminated align =>
    obtain rfl := Option.some.inj h
    rw [List.length_append, List.length_take, List.length_replicate]
    omega
  | space count =>
    obtain rfl := Option.some.inj h
    exact List.length_replicate

end Payload

/-! ## Writes -/

/-- Bytes that are written from an address on. -/
structure Write where
  address : UInt32
  bytes : ByteString

namespace Write

/-- The part of memory that is written. -/
def block (x : Write) : Block := ⟨x.address.toNat, x.bytes.length⟩

/-- Does the write end before the addresses wrap around? -/
def Fits (x : Write) : Prop := x.block.start + x.block.size ≤ 2 ^ 32

/-- A memory after a write. -/
def apply (M : FlatMemory) (x : Write) : FlatMemory := M.storeBytes x.address x.bytes

/-- A memory after some writes. -/
def run (M : FlatMemory) (ws : List Write) : FlatMemory := ws.foldl apply M

theorem apply_of_covers {x : Write} (hx : x.Fits) (M : FlatMemory) {y : UInt32}
    (h : x.block.Covers y.toNat) : x.apply M y = x.bytes[y.toNat - x.address.toNat]? := by
  obtain ⟨hl, hu⟩ := h
  simp only [Fits, block] at hx hl hu
  have hsub := UInt32.toNat_sub y x.address
  have hy := y.toNat_lt
  rw [apply, FlatMemory.storeBytes_apply _ _ _ (by omega),
    show (y - x.address).toNat = y.toNat - x.address.toNat by omega,
    List.getElem?_eq_getElem (by omega)]
  rfl

theorem apply_of_not_covers {x : Write} (hx : x.Fits) (M : FlatMemory) {y : UInt32}
    (h : ¬x.block.Covers y.toNat) : x.apply M y = M y := by
  simp only [Fits, block, Block.Covers] at hx h
  have hsub := UInt32.toNat_sub y x.address
  have hy := y.toNat_lt
  have ha := x.address.toNat_lt
  rw [apply, FlatMemory.storeBytes_apply _ _ _ (by omega), List.getElem?_eq_none (by omega),
    Option.none_or]

/-- Where nothing is written, a run of writes changes nothing. -/
theorem run_of_not_covers {ws : List Write} (hfit : ∀ x ∈ ws, x.Fits) (M : FlatMemory) {y : UInt32}
    (h : ∀ x ∈ ws, ¬x.block.Covers y.toNat) : run M ws y = M y := by
  induction ws generalizing M with
  | nil => rfl
  | cons x ws ih =>
    rw [List.forall_mem_cons] at hfit h
    rw [run, List.foldl_cons, ← run, ih hfit.2 _ h.2, apply_of_not_covers hfit.1 M h.1]

/-- What a write leaves in memory stays there if the others are apart from it. -/
theorem run_of_covers {ws : List Write} (hfit : ∀ x ∈ ws, x.Fits)
    (hapart : (ws.map block).Pairwise Block.Apart) (M : FlatMemory) {x : Write} (hx : x ∈ ws)
    {y : UInt32} (h : x.block.Covers y.toNat) :
    run M ws y = x.bytes[y.toNat - x.address.toNat]? := by
  induction ws generalizing M with
  | nil => cases hx
  | cons z ws ih =>
    rw [List.forall_mem_cons] at hfit
    rw [List.map_cons, List.pairwise_cons] at hapart
    rw [run, List.foldl_cons, ← run]
    rcases List.mem_cons.1 hx with rfl | hx
    · rw [run_of_not_covers hfit.2, apply_of_covers hfit.1 M h]
      exact fun z hz => hapart.1 _ (List.mem_map_of_mem hz) _ h
    · exact ih hfit.2 hapart.2 _ hx

end Write

/-! ## Loading -/

/-- A write of the word of an instruction at its address. -/
structure TextWrite (e : Entry Instruction) (x : Write) : Prop where
  address : addressOf? e.place = some x.address
  aligned : x.address.toNat % 4 = 0
  word : ∃ w, e.item.encode = .ok w ∧ x.bytes = (List.range 4).map (byteOf w)

/-- A write of the bytes of a payload at its address. A payload of size zero writes nothing, whether
it can be encoded or not. -/
structure DataWrite (e : Entry Payload) (x : Write) : Prop where
  address : (addressOf? e.place).getD 0 = x.address
  length : x.bytes.length = e.item.size.toNat
  bytes : e.item.size ≠ 0 → e.item.encode? = some x.bytes

theorem TextWrite.block_eq {e : Entry Instruction} {x : Write} (h : TextWrite e x) :
    e.block = x.block := by
  obtain ⟨w, -, hbytes⟩ := h.word
  rw [Entry.block, Write.block, h.address, hbytes]
  rfl

theorem DataWrite.block_eq {e : Entry Payload} {x : Write} (h : DataWrite e x) :
    e.block = x.block := by
  rw [Entry.block, Write.block, h.address, h.length]
  rfl

theorem storeInstruction_write {m m' : PagedMemory} {e : Entry Instruction}
    (h : storeInstruction m e = .ok m') :
    ∃ x, TextWrite e x ∧ ∀ M, m.Refines M → m'.Refines (x.apply M) := by
  rw [storeInstruction] at h
  split at h
  · cases h
  rename_i a ha
  split at h
  · cases h
  rename_i w hw
  by_cases hmod : a.toNat % 4 = 0
  · rw [storeWord_eq, if_pos hmod] at h
    obtain rfl := Except.ok.inj h
    exact ⟨⟨a, (List.range 4).map (byteOf w)⟩, ⟨ha, hmod, w, hw, rfl⟩, fun M hM => hM.updateWord hmod w⟩
  · rw [storeWord_eq, if_neg hmod] at h
    cases h

theorem storePayload_write {m m' : PagedMemory} {e : Entry Payload}
    (h : storePayload m e = .ok m') :
    ∃ x, DataWrite e x ∧ ∀ M, m.Refines M → m'.Refines (x.apply M) := by
  rw [storePayload] at h
  split at h
  · rename_i hsize
    cases h
    exact ⟨⟨_, []⟩, ⟨rfl, by simp [hsize], fun hne => absurd hsize hne⟩, fun M hM => hM⟩
  split at h
  · cases h
  rename_i a ha
  split at h
  · cases h
  rename_i bs hbs
  cases h
  refine ⟨⟨a, bs⟩, ⟨by rw [ha]; rfl, Payload.length_encode? hbs, fun _ => hbs⟩, fun M hM => ?_⟩
  exact hM.storeBytes a bs

/-- A loop of steps that each write refines the run of the writes. -/
theorem foldlM_writes {α : Type} {f : PagedMemory → Entry α → Except AssemblyError PagedMemory}
    {es : List (Entry α)} {m m' : PagedMemory} (h : es.foldlM f m = .ok m')
    {R : Entry α → Write → Prop}
    (step : ∀ {m e m'}, f m e = .ok m' →
      ∃ x, R e x ∧ ∀ M, Refines m M → Refines m' (x.apply M)) :
    ∃ ws, List.Forall₂ R es ws ∧ ∀ M, Refines m M → Refines m' (Write.run M ws) := by
  induction es generalizing m with
  | nil =>
    obtain rfl := pure_eq_ok.1 h
    exact ⟨[], .nil, fun M hM => hM⟩
  | cons e es ih =>
    rw [List.foldlM_cons] at h
    obtain ⟨next, he, h⟩ := bind_eq_ok.1 h
    obtain ⟨x, hx, hstep⟩ := step he
    obtain ⟨ws, hws, hrun⟩ := ih h
    exact ⟨x :: ws, .cons hx hws, fun M hM => hrun _ (hstep M hM)⟩

theorem Program.text_subset_allText (p : Program) (m : Mode) : p.text m ⊆ p.allText := by
  cases m with
  | user => exact List.subset_append_left ..
  | kernel => exact List.subset_append_right ..

theorem Program.data_subset_allData (p : Program) (m : Mode) : p.data m ⊆ p.allData := by
  cases m with
  | user => exact List.subset_append_left ..
  | kernel => exact List.subset_append_right ..

/-- The image of a program refines a run of one write for each entry. -/
theorem Program.load_writes {p : Program} {m : PagedMemory} (h : p.load = .ok m) :
    ∃ text data, List.Forall₂ TextWrite (p.allText.flatMap (·.entries)) text ∧
      List.Forall₂ DataWrite (p.allData.flatMap (·.entries)) data ∧
      m.Refines (Write.run (fun _ => none) (text ++ data)) := by
  rw [Program.load] at h
  obtain ⟨m₀, ht, hd⟩ := bind_eq_ok.1 h
  obtain ⟨text, htext, hrun⟩ := foldlM_writes ht storeInstruction_write
  obtain ⟨data, hdata, hrun'⟩ := foldlM_writes hd storePayload_write
  refine ⟨text, data, htext, hdata, ?_⟩
  rw [Write.run, List.foldl_append]
  exact hrun' _ (hrun _ .empty)

/-- The blocks of the writes are those of the entries. -/
theorem writes_blocks_perm {p : Program} {text data : List Write}
    (ht : List.Forall₂ TextWrite (p.allText.flatMap (·.entries)) text)
    (hd : List.Forall₂ DataWrite (p.allData.flatMap (·.entries)) data) :
    ((text ++ data).map Write.block).Perm (Category.all.flatMap p.blocks) := by
  rw [List.map_append, ← map_eq_map_of_forall₂ (fun e x hx => hx.block_eq) ht,
    ← map_eq_map_of_forall₂ (fun e x hx => hx.block_eq) hd]
  simp only [Program.allText, Program.allData, List.flatMap_append, List.map_append,
    List.map_flatMap, List.append_assoc]
  refine .append_left (blocksOf p.userText) ?_
  refine (List.perm_append_comm_assoc ..).trans ?_
  simp [Program.blocks, Program.text, Program.data, blocksOf]

/-! ## Images -/

/-- An image holds a program: the words of its instructions, the bytes of its payloads, and no other
word than those that these are part of, with zeros around them. -/
structure PagedMemory.Holds (image : PagedMemory) (p : Program) : Prop where
  text : ∀ m, ∀ s ∈ p.text m, ∀ e ∈ s.entries, ∃ a word, addressOf? e.place = some a ∧
    e.item.encode = .ok word ∧ image.loadWord? a = some word
  data : ∀ m, ∀ s ∈ p.data m, ∀ e ∈ s.entries, ∃ a, addressOf? e.place = some a ∧
    (e.item.size ≠ 0 → ∃ bs, e.item.encode? = some bs ∧ bs.length = e.item.size.toNat ∧
      ∀ j b, bs[j]? = some b → image.byte? (a + UInt32.ofNat j) = some b)
  written : ∀ a word, image.loadWord? a = some word →
    ∃ k, ∃ b ∈ p.blocks k, ∃ x, b.Covers x ∧ x / 4 = a.toNat / 4
  zero : ∀ a word, image.loadWord? a = some word → ∀ i < 4,
    (∀ k, ∀ b ∈ p.blocks k, ¬b.Covers (a.toNat / 4 * 4 + i)) → byteOf word i = 0

section Run

variable {image : PagedMemory} {ws : List Write} (hM : image.Refines (Write.run (fun _ => none) ws))
  (hfit : ∀ x ∈ ws, x.Fits) (hapart : (ws.map Write.block).Pairwise Block.Apart)

include hM hfit

theorem exists_covers_of_loadWord? {a word : UInt32} (hw : image.loadWord? a = some word) :
    ∃ x ∈ ws, ∃ y : UInt32, x.block.Covers y.toNat ∧ SameWord a y := by
  obtain ⟨y, hy, hsome⟩ := (hM.written a).1 (Option.isSome_iff_exists.2 ⟨word, hw⟩)
  by_contra hnot
  rw [Write.run_of_not_covers hfit _ fun x hx hc => hnot ⟨x, hx, y, hc, hy⟩] at hsome
  cases hsome

theorem byteOf_eq_zero {a word : UInt32} (hw : image.loadWord? a = some word) {i : Nat} (hi : i < 4)
    (hfree : ∀ x ∈ ws, ¬x.block.Covers (a.toNat / 4 * 4 + i)) : byteOf word i = 0 := by
  rw [← toNat_wordByte a hi] at hfree
  rw [hM.byte_wordByte hw hi, Write.run_of_not_covers hfit _ hfree]
  rfl

include hapart

/-- What was written can be read, byte by byte. -/
theorem byte?_of_mem {x : Write} (hx : x ∈ ws) {j : Nat} {b : UInt8} (hb : x.bytes[j]? = some b) :
    image.byte? (x.address + UInt32.ofNat j) = some b := by
  obtain ⟨hj, -⟩ := List.getElem?_eq_some_iff.1 hb
  have hx' := hfit x hx
  simp only [Write.Fits, Write.block] at hx'
  have hadd : (x.address + UInt32.ofNat j).toNat = x.address.toNat + j := by
    rw [UInt32.toNat_add, UInt32.toNat_ofNat']
    omega
  refine hM.byte?_eq ?_
  rw [Write.run_of_covers hfit hapart _ hx, hadd, Nat.add_sub_cancel_left, hb]
  exact ⟨by simp [Write.block, hadd], by simp [Write.block, hadd, hj]⟩

/-- A word that was written at the address of a word can be read. -/
theorem loadWord?_of_mem {x : Write} (hx : x ∈ ws) (haligned : x.address.toNat % 4 = 0)
    {word : UInt32} (hword : x.bytes = (List.range 4).map (byteOf word)) :
    image.loadWord? x.address = some word := by
  refine hM.loadWord?_eq fun y hy => ?_
  have hlen : x.bytes.length = 4 := by rw [hword, List.length_map, List.length_range]
  rw [SameWord] at hy
  have hcovers : x.block.Covers y.toNat := by
    simp only [Block.Covers, Write.block]
    omega
  rw [Write.run_of_covers hfit hapart _ hx hcovers, hword, List.getElem?_map,
    List.getElem?_range (by omega), show y.toNat - x.address.toNat = y.toNat % 4 by omega]
  rfl

end Run

theorem exists_mem_blocks {p : Program} {ws : List Write}
    (hperm : (ws.map Write.block).Perm (Category.all.flatMap p.blocks)) {x : Write} (hx : x ∈ ws) :
    ∃ k, x.block ∈ p.blocks k := by
  have hmem := hperm.mem_iff.1 (List.mem_map_of_mem hx)
  obtain ⟨k, -, hk⟩ := List.mem_flatMap.1 hmem
  exact ⟨k, hk⟩

/-- The image of a program holds it, if the blocks of its entries are apart. -/
theorem Program.load_holds {p : Program} {image : PagedMemory} (h : p.load = .ok image)
    (haddress : ∀ m, ∀ s ∈ p.data m, ∀ e ∈ s.entries, ∃ a, addressOf? e.place = some a)
    (hfit : ∀ k, ∀ b ∈ p.blocks k, b.size ≠ 0 → b.start + b.size ≤ 2 ^ 32)
    (hapart : (Category.all.flatMap p.blocks).Pairwise Block.Apart) : image.Holds p := by
  obtain ⟨text, data, htext, hdata, hM⟩ := p.load_writes h
  have hperm := writes_blocks_perm htext hdata
  have hfit' : ∀ x ∈ text ++ data, x.Fits := by
    intro x hx
    by_cases hsize : x.block.size = 0
    · rw [Write.Fits, hsize]
      exact Nat.le_of_lt x.address.toNat_lt
    · obtain ⟨k, hk⟩ := exists_mem_blocks hperm hx
      exact hfit k _ hk hsize
  have hapart' : ((text ++ data).map Write.block).Pairwise Block.Apart :=
    (hperm.pairwise_iff Block.Apart.symm).2 hapart
  constructor
  case text =>
    intro m s hs e he
    have hmem := List.mem_flatMap.2 ⟨s, p.text_subset_allText m hs, he⟩
    obtain ⟨x, hx, hwrite⟩ := exists_of_mem_left htext hmem
    obtain ⟨word, hencode, hbytes⟩ := hwrite.word
    exact ⟨x.address, word, hwrite.address, hencode, loadWord?_of_mem hM hfit' hapart'
      (List.mem_append_left _ hx) hwrite.aligned hbytes⟩
  case data =>
    intro m s hs e he
    have hmem := List.mem_flatMap.2 ⟨s, p.data_subset_allData m hs, he⟩
    obtain ⟨x, hx, hwrite⟩ := exists_of_mem_left hdata hmem
    obtain ⟨a, ha⟩ := haddress m s hs e he
    have hxa : a = x.address := by simpa [ha] using hwrite.address
    refine ⟨a, ha, fun hsize => ⟨x.bytes, hwrite.bytes hsize, hwrite.length, fun j b hb => ?_⟩⟩
    rw [hxa]
    exact byte?_of_mem hM hfit' hapart' (List.mem_append_right _ hx) hb
  case written =>
    intro a word hw
    obtain ⟨x, hx, y, hc, hy⟩ := exists_covers_of_loadWord? hM hfit' hw
    obtain ⟨k, hk⟩ := exists_mem_blocks hperm hx
    exact ⟨k, x.block, hk, y.toNat, hc, hy.symm⟩
  case zero =>
    intro a word hw i hi hfree
    refine byteOf_eq_zero hM hfit' hw hi fun x hx hc => ?_
    obtain ⟨k, hk⟩ := exists_mem_blocks hperm hx
    exact hfree k _ hk hc

theorem assemble_eq_ok {w : Windows} {src : ByteString} {r : Assembly}
    (h : assemble w src = .ok r) :
    ∃ p, Program.parse src = .ok p ∧ p.resolve w = .ok (r.program, r.symbols) ∧
      r.program.load = .ok r.image := by
  rw [assemble] at h
  split at h <;> rename_i p hp <;> obtain ⟨_, hparsed, h⟩ := bind_eq_ok.1 h <;> cases hparsed
  obtain ⟨⟨program, symbols⟩, hr, h⟩ := bind_eq_ok.1 h
  obtain ⟨image, hi, h⟩ := bind_eq_ok.1 h
  obtain rfl := pure_eq_ok.1 h
  exact ⟨p, hp, hr, hi⟩

/-- The windows that options ask for end where the standard ones do. -/
theorem windows_stop {o : CommandLine.Options} {w : Windows} (h : o.windows = .ok w) (k : Category) :
    (w.region k).stop = (({} : Windows).region k).stop := by
  have hmove : ∀ {flag text : ByteString} {r r' : Region},
      CommandLine.moveStart flag text r = .ok r' → r'.stop = r.stop := by
    intro flag text r r' h
    rw [CommandLine.moveStart] at h
    split at h
    · cases h
      rfl
    · split at h <;> cases h
      rfl
  rw [CommandLine.Options.windows] at h
  obtain ⟨userText, ht, h⟩ := bind_eq_ok.1 h
  obtain ⟨userData, hd, h⟩ := bind_eq_ok.1 h
  obtain rfl := pure_eq_ok.1 h
  match k with
  | .text .user => exact hmove ht
  | .data .user => exact hmove hd
  | .text .kernel | .data .kernel => rfl

/-- Windows that options ask for leave room to round up. -/
theorem windows_stop_le {o : CommandLine.Options} {w : Windows} (h : o.windows = .ok w)
    (k : Category) : (w.region k).stop.toNat ≤ 0xFFFFFFF8 := by
  rw [windows_stop h]
  rcases k with (_ | _) | (_ | _) <;> decide

/-- **The image of a source is faithful.** If the windows are apart and leave room to round up, the
entries of a program that is assembled have memory of their own inside the windows, and the image
holds their words and bytes and nothing else. Windows that options ask for leave that room. -/
theorem assemble_image :
    (∀ (w : Windows) (src : ByteString) (r : Assembly), w.Usable → assemble w src = .ok r →
      (Category.all.flatMap r.program.blocks).Pairwise Block.Apart ∧
        (∀ k, ∀ b ∈ r.program.blocks k, b.size ≠ 0 → b.Within (w.region k)) ∧
        r.image.Holds r.program) ∧
    ∀ (o : CommandLine.Options) (w : Windows), o.windows = .ok w →
      ∀ k, (w.region k).stop.toNat ≤ 0xFFFFFFF8 := by
  refine ⟨fun w src r hw h => ?_, fun o w => windows_stop_le⟩
  obtain ⟨p, -, hr, hl⟩ := assemble_eq_ok h
  obtain ⟨hapart, hwithin⟩ := Program.resolve_blocks hw hr
  refine ⟨hapart, hwithin, Program.load_holds hl (Program.resolve_data_addressed hr) ?_ hapart⟩
  intro k b hb hsize
  exact Nat.le_trans (hwithin k b hb hsize).2 (Nat.le_of_lt (w.region k).stop.toNat_lt)

/-- The standard windows divide the address space. -/
theorem standardWindows_usable : ({} : Windows).Usable where
  stop_le k := by rcases k with (_ | _) | (_ | _) <;> decide
  apart k k' hne a := by
    simp only [Region.contains, Bool.and_eq_true, decide_eq_true_iff, UInt32.le_iff_toNat_le,
      UInt32.lt_iff_toNat_lt]
    rcases k with (_ | _) | (_ | _) <;> rcases k' with (_ | _) | (_ | _) <;>
      first
      | exact absurd rfl hne
      | simp only [Windows.region, Region.text, Region.staticData, Region.kernelText,
          Region.kernelData, UInt32.reduceToNat]
        omega

/-- A source whose data do not start at the address of a word. -/
def mixedSource : ByteString :=
  ".text\nmain: li $t0, x\nj main\n.data 0x10000002\nx: .asciiz \"ab\"\n.word 5\n"

/-- The data begin and end in the middle of a word. -/
theorem assemble_image_mixed :
    ∃ r, assemble {} mixedSource = .ok r ∧ r.image.loadWord? 0x0A000008 = some 0x0BFFFFFE ∧
      r.image.loadWord? 0x10000000 = some 0x62610000 ∧
      r.image.loadWord? 0x10000004 = some 0x00050000 ∧
      (Category.all.flatMap r.program.blocks).Pairwise Block.Apart ∧
      r.image.Holds r.program := by
  have h : (assemble {} mixedSource).toOption.map (fun r =>
      (r.image.loadWord? 0x0A000008, r.image.loadWord? 0x10000000, r.image.loadWord? 0x10000004)) =
      some (some 0x0BFFFFFE, some 0x62610000, some 0x00050000) := by decide +kernel
  cases hr : assemble {} mixedSource with
  | error e => simp [hr, Except.toOption] at h
  | ok r =>
    rw [hr] at h
    obtain ⟨h₁, h₂⟩ := Prod.mk.inj (Option.some.inj h)
    obtain ⟨h₂, h₃⟩ := Prod.mk.inj h₂
    obtain ⟨hapart, -, hholds⟩ := assemble_image.1 _ _ _ standardWindows_usable hr
    exact ⟨r, rfl, h₁, h₂, h₃, hapart, hholds⟩

end MipsAssembler
