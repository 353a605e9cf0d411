import Mathlib.Order.Interval.Finset.Nat
import MipsAssembler.Proofs.FreeData
import MipsAssembler.Proofs.MovedWindows
import MipsAssembler.Proofs.SourceLabels
import MipsAssembler.Report.Usage

/-!
# What the figures of a program count

The figures about an assembled source are exact (`assemble_usage`).

* A table of counts has for each name the number of times it was counted (`getD_foldl_countName`), and
  these numbers add up to all that was counted (`total_foldl_countName`).
* The bytes of data are counted in 32 bits, which is enough: the blocks of the entries are apart from
  one another inside their windows (`totalBytes_le`), and the windows of data together have fewer than
  2³² bytes (`Program.resolve_dataSize_lt`).
* Labels and segments are those of the lines of the source.
-/

namespace MipsAssembler

open ByteString Outcome

/-! ## Counting names -/

namespace Usage

theorem getD_countName (counts : Std.ExtTreeMap ByteString Int) (name x : ByteString) :
    (countName counts name).getD x 0 = counts.getD x 0 + if name = x then 1 else 0 := by
  simp only [countName, Std.ExtTreeMap.getD_insert, Std.LawfulEqCmp.compare_eq_iff_eq]
  split <;> rename_i h
  · rw [h]
  · rw [Int.add_zero]

theorem getD_foldl_countName (names : List ByteString) (counts : Std.ExtTreeMap ByteString Int)
    (x : ByteString) :
    (names.foldl countName counts).getD x 0 = counts.getD x 0 + names.count x := by
  induction names generalizing counts with
  | nil => simp
  | cons name names ih =>
    rw [List.foldl_cons, ih, getD_countName, List.count_cons]
    by_cases h : name = x
    · simp [h]
      omega
    · simp [h]

theorem mem_foldl_countName {names : List ByteString} {counts : Std.ExtTreeMap ByteString Int}
    {x : ByteString} : x ∈ names.foldl countName counts ↔ x ∈ names ∨ x ∈ counts := by
  induction names generalizing counts with
  | nil => simp
  | cons name names ih =>
    rw [List.foldl_cons, ih, countName, Std.ExtTreeMap.mem_insert,
      Std.LawfulEqCmp.compare_eq_iff_eq, List.mem_cons, ← or_assoc, or_comm (a := x ∈ names),
      eq_comm]

/-- The sum of all counts. -/
def total (counts : Std.ExtTreeMap ByteString Int) : Int := counts.foldl (fun n _ c => n + c) 0

/-- Counts of names add up to the occurrences of these names. -/
theorem foldl_counts {names : List ByteString} {xs : List (ByteString × Int)}
    (h : ∀ x ∈ xs, x.2 = names.count x.1) (n : Int) :
    xs.foldl (fun n x => n + x.2) n =
      n + ((xs.map Prod.fst).flatMap fun k => names.filter fun x => x = k).length := by
  induction xs generalizing n with
  | nil => simp
  | cons x xs ih =>
    obtain ⟨hx, hxs⟩ := List.forall_mem_cons.1 h
    have hcount : names.count x.1 = (names.filter fun y => y = x.1).length := by
      simp only [List.count_eq_length_filter, beq_eq_decide]
    rw [List.foldl_cons, ih hxs, hx, List.map_cons, List.flatMap_cons, List.length_append, hcount]
    omega

/-- The counts add up to all names that were counted. -/
theorem total_foldl_countName (names : List ByteString) :
    total (names.foldl countName ∅) = names.length := by
  have hcounts : ∀ x ∈ (names.foldl countName ∅).toList, x.2 = names.count x.1 := by
    rintro ⟨name, count⟩ hx
    have hget := Std.ExtTreeMap.mem_toList_iff_getElem?_eq_some.1 hx
    have hcount := getD_foldl_countName names ∅ name
    rw [Std.ExtTreeMap.getD_eq_getD_getElem?, hget] at hcount
    simpa using hcount
  -- the keys are all names, each once, so that the names with these keys are all names
  have hall : ∀ x ∈ names, id x ∈ (names.foldl countName ∅).keys := fun x hx =>
    Std.ExtTreeMap.mem_keys.2 (mem_foldl_countName.2 (.inl hx))
  have hperm := perm_flatMap_filter id Std.ExtTreeMap.nodup_keys hall
  rw [total, Std.ExtTreeMap.foldl_eq_foldl_toList, foldl_counts hcounts, Int.zero_add,
    Std.ExtTreeMap.map_fst_toList_eq_keys, hperm.length_eq]
  rfl

end Usage

/-! ## The bytes of blocks -/

namespace Block

/-- The bytes of some blocks, all in all. -/
def totalBytes : List Block → Nat
  | [] => 0
  | b :: bs => b.size + totalBytes bs

/-- The addresses of the bytes of some blocks. -/
def covered : List Block → Finset Nat
  | [] => ∅
  | b :: bs => Finset.Ico b.start (b.start + b.size) ∪ covered bs

theorem mem_covered {bs : List Block} {x : Nat} : x ∈ covered bs ↔ ∃ b ∈ bs, b.Covers x := by
  induction bs with
  | nil => simp [covered]
  | cons b bs ih => simp [covered, ih, Covers]

/-- Blocks that are apart cover as many addresses as they have bytes. -/
theorem card_covered {bs : List Block} (h : bs.Pairwise Apart) :
    (covered bs).card = totalBytes bs := by
  induction bs with
  | nil => rfl
  | cons b bs ih =>
    obtain ⟨hb, hbs⟩ := List.pairwise_cons.1 h
    have hdisjoint : Disjoint (Finset.Ico b.start (b.start + b.size)) (covered bs) := by
      refine Finset.disjoint_left.2 fun x hx hmem => ?_
      obtain ⟨c, hc, hcovers⟩ := mem_covered.1 hmem
      exact hb c hc x (Finset.mem_Ico.1 hx) hcovers
    rw [covered, Finset.card_union_of_disjoint hdisjoint, ih hbs, Nat.card_Ico, totalBytes,
      Nat.add_sub_cancel_left]

/-- Blocks that are apart have no more bytes than the region around them. -/
theorem totalBytes_le {r : Region} {bs : List Block} (h : bs.Pairwise Apart)
    (hin : ∀ b ∈ bs, b.size ≠ 0 → b.Within r) :
    totalBytes bs ≤ r.stop.toNat - r.start.toNat := by
  have hsubset : covered bs ⊆ Finset.Ico r.start.toNat r.stop.toNat := by
    intro x hx
    obtain ⟨b, hb, hcovers⟩ := mem_covered.1 hx
    exact Finset.mem_Ico.2 ((hin b hb hcovers.size_ne_zero).bounds hcovers)
  calc totalBytes bs = (covered bs).card := (card_covered h).symm
    _ ≤ (Finset.Ico r.start.toNat r.stop.toNat).card := Finset.card_le_card hsubset
    _ = r.stop.toNat - r.start.toNat := Nat.card_Ico ..

theorem totalBytes_map {α : Type} [Sized α] (es : List (Entry α)) :
    totalBytes (es.map Entry.block) = totalSize es := by
  induction es with
  | nil => rfl
  | cons e es ih => rw [List.map_cons, totalBytes, ih, totalSize_cons, Entry.block]

theorem totalBytes_blocksOf {α : Type} [Sized α] (segments : List (Segment α)) :
    totalBytes (blocksOf segments) = totalSize (segments.flatMap (·.entries)) := by
  rw [blocksOf, ← List.map_flatMap, totalBytes_map]

end Block

/-! ## The bytes of data -/

/-- The bytes of some payloads, all in all and without bound. -/
def Payload.fullTotal : List Payload → Nat
  | [] => 0
  | d :: ds => d.fullSize + fullTotal ds

theorem totalSize_eq_fullTotal {es : List (Entry Payload)}
    (h : ∀ e ∈ es, e.item.fullSize < 2 ^ 32) :
    totalSize es = Payload.fullTotal (es.map (·.item)) := by
  induction es with
  | nil => rfl
  | cons e es ih =>
    obtain ⟨he, hes⟩ := List.forall_mem_cons.1 h
    rw [totalSize_cons, List.map_cons, Payload.fullTotal, ih hes, ← Payload.toNat_size he]
    rfl

theorem toNat_foldl_segmentSize {α : Type} [Sized α] (n : UInt32) (segments : List (Segment α)) :
    (segments.foldl (fun n s => n + s.size) n).toNat =
      (n.toNat + totalSize (segments.flatMap (·.entries))) % 2 ^ 32 := by
  induction segments generalizing n with
  | nil => simp [Nat.mod_eq_of_lt n.toNat_lt]
  | cons s segments ih =>
    rw [List.foldl_cons, ih, UInt32.toNat_add, Segment.size, toNat_foldl_size, UInt32.toNat_zero,
      Nat.zero_add, List.flatMap_cons, totalSize_append, Nat.add_mod_mod, Nat.mod_add_mod,
      Nat.add_assoc]

namespace Program

variable {o : CommandLine.Options} {w : Windows} {p q : Program} {t : SymbolTable}

/-- The payloads of a program, those of the user first. -/
def payloads (p : Program) : List Payload := (p.allData.flatMap (·.entries)).map (·.item)

/-- The data of a category in a resolved program has room in its window. -/
theorem resolve_totalSize_le (ho : o.windows = .ok w) (h : p.resolve w = .ok (q, t)) (m : Mode) :
    totalSize ((q.data m).flatMap (·.entries)) ≤
      (w.region (.data m)).stop.toNat - (w.region (.data m)).start.toNat := by
  obtain ⟨hapart, hwithin⟩ := resolve_category_blocks h (windows_stop_le ho (.data m))
  rw [← Block.totalBytes_blocksOf]
  exact Block.totalBytes_le hapart hwithin

/-- The number of all bytes of data is one of 32 bits. -/
theorem resolve_dataSize_lt (ho : o.windows = .ok w) (h : p.resolve w = .ok (q, t)) :
    totalSize (q.allData.flatMap (·.entries)) < 2 ^ 32 := by
  have huser := resolve_totalSize_le ho h .user
  have hkernel := resolve_totalSize_le ho h .kernel
  have hstop : w.userData.stop.toNat = 0x80000000 :=
    congrArg UInt32.toNat (windows_stop ho (.data .user))
  simp only [Windows.region, (windows_kernel ho).2, hstop, Region.kernelData, UInt32.reduceToNat,
    Program.data] at huser hkernel
  rw [allData, List.flatMap_append, totalSize_append]
  omega

/-- Resolving keeps the payloads. -/
theorem payloads_resolve (h : p.resolve w = .ok (q, t)) : q.payloads = p.payloads := by
  have hmode : ∀ m, ((q.data m).flatMap (·.entries)).map (·.item) =
      ((p.data m).flatMap (·.entries)).map (·.item) := by
    intro m
    rw [List.map_flatMap, List.map_flatMap, List.flatMap_def, List.flatMap_def,
      map_eq_map_of_forall₂ (fun _ _ hitems => hitems.symm) (resolve_data_items h m)]
  rw [payloads, payloads, allData, allData, List.flatMap_append, List.flatMap_append,
    List.map_append, List.map_append]
  exact congrArg₂ (· ++ ·) (hmode .user) (hmode .kernel)

/-- The bytes of data are counted without wrapping around. -/
theorem resolve_dataBytes (ho : o.windows = .ok w) (h : p.resolve w = .ok (q, t))
    (hsizes : ∀ d ∈ p.payloads, d.fullSize < 2 ^ 32) :
    (Usage.ofProgram q t).dataBytes.toNat = Payload.fullTotal p.payloads := by
  rw [← payloads_resolve h] at hsizes ⊢
  have hexact := totalSize_eq_fullTotal fun e he => hsizes e.item (List.mem_map_of_mem he)
  rw [Usage.ofProgram, toNat_foldl_segmentSize, UInt32.toNat_zero, Nat.zero_add,
    Nat.mod_eq_of_lt (resolve_dataSize_lt ho h), hexact, payloads]

/-! ## Entries and segments -/

theorem length_flatMap_entries {α : Type} {segments segments' : List (Segment α)}
    (h : List.Forall₂ (fun s s' => s'.entries.length = s.entries.length) segments segments') :
    (segments'.flatMap (·.entries)).length = (segments.flatMap (·.entries)).length := by
  induction h with
  | nil => rfl
  | cons hs _ ih => simp only [List.flatMap_cons, List.length_append, hs, ih]

/-- A resolved program has an instruction for each that expansion gives. -/
theorem Written.length_allInstructions (hw : p.Written) (h : p.resolve w = .ok (q, t)) :
    (Usage.allInstructions q).length = (p.expand.allText.flatMap (·.entries)).length := by
  have hmode : ∀ m, ((q.text m).flatMap (·.entries)).length =
      ((p.expand.text m).flatMap (·.entries)).length := fun m =>
    length_flatMap_entries ((hw.mapped h (.text m)).imp fun _ _ hs => hs.length)
  rw [Usage.allInstructions, List.length_map, allText, allText, List.flatMap_append,
    List.flatMap_append, List.length_append, List.length_append]
  exact congrArg₂ (· + ·) (hmode .user) (hmode .kernel)

/-- A resolved program has the segments of the program from the source. -/
theorem Written.length_segments (hw : p.Written) (h : p.resolve w = .ok (q, t)) (k : Category) :
    (q.segments k).length = (p.segments k).length := by
  rw [← (hw.mapped h k).length_eq]
  cases k with
  | text m =>
    rw [segments_expand_text, List.length_map]
    rfl
  | data m =>
    rw [segments_expand_data]
    rfl

end Program

/-! ## All figures -/

/-- The figures are those of a program `p` from some lines, resolved to `q`. -/
structure Usage.Exact (u : Usage) (lines : List SourceLine) (p q : Program) : Prop where
  instructions : u.instructions = (p.expand.allText.flatMap (·.entries)).length
  total : u.instructions = total u.mnemonics
  mnemonics : ∀ name, u.mnemonics.getD name 0 = ((allInstructions q).map countedName).count name
  dataBytes : u.dataBytes.toNat = Payload.fullTotal p.payloads
  labels : u.labels = (lines.flatMap (·.labels)).length
  segments : ∀ k, u.segments k = (q.segments k).length ∧ u.segments k = (openings lines).count k

/-- **The figures are exact.** Whatever the options, when a source is assembled whose payloads each
have a size of 32 bits: the instructions are those after expansion, and as many as the counts of all
mnemonics add up to; the bytes of data are the sum of the sizes of all payloads, in unbounded numbers;
the labels are the ones defined on the lines of the source, and so are the segments. -/
theorem assemble_usage {o : CommandLine.Options} {w : Windows} {src : ByteString} {p : Program}
    {a : Assembly} (ho : o.windows = .ok w) (hparse : Program.parse src = .ok p)
    (h : assemble w src = .ok a) (hsizes : ∀ d ∈ p.payloads, d.fullSize < 2 ^ 32) :
    ∃ lines, sourceLines src = .ok lines ∧
      (Usage.ofProgram a.program a.symbols).Exact lines p a.program := by
  obtain ⟨p', hparse', hresolve, -⟩ := assemble_eq_ok h
  obtain rfl : p' = p := Except.ok.inj (hparse'.symm.trans hparse)
  obtain ⟨lines, hlines, hlabels, hsegments⟩ := Program.parse_labels hparse
  have hw := Program.parse_written hparse
  refine ⟨lines, hlines, ?_, ?_, fun name => ?_, Program.resolve_dataBytes ho hresolve hsizes, ?_,
    fun k => ?_⟩
  · exact congrArg Int.ofNat (hw.length_allInstructions hresolve)
  · rw [Usage.ofProgram, Usage.total_foldl_countName, List.length_map]
  · rw [Usage.ofProgram, Usage.getD_foldl_countName, Std.ExtTreeMap.getD_empty, Int.zero_add]
  · exact congrArg Int.ofNat ((hw.names_perm hresolve).trans hlabels).length_eq
  · have hcount : Usage.segmentCount a.program k = (a.program.segments k).length := by
      cases k <;> rfl
    rw [← hsegments, ← hw.length_segments hresolve]
    exact ⟨congrArg Int.ofNat hcount, congrArg Int.ofNat hcount⟩

/-- Pseudo instructions, two labels of one entry, and text and data of the kernel. -/
def countedSource : ByteString :=
  ".text\nmain: la $a0, list\nnop\nagain:\nend: j main\n.ktext\nnop\n" ++
    ".data\nlist: .asciiz \"abcd\"\n.word 1, 2\n.kdata\n.space 3\n.data\n.byte 7\n"

/-- The pseudo instruction counts twice, and both labels of the jump count. -/
theorem assemble_usage_counted :
    ∃ w p a lines, movedOptions.windows = .ok w ∧ Program.parse countedSource = .ok p ∧
      assemble w countedSource = .ok a ∧ (∀ d ∈ p.payloads, d.fullSize < 2 ^ 32) ∧
      (Usage.ofProgram a.program a.symbols).instructions = 5 ∧
      (Usage.ofProgram a.program a.symbols).dataBytes = 20 ∧
      (Usage.ofProgram a.program a.symbols).labels = 4 ∧
      sourceLines countedSource = .ok lines ∧
      (Usage.ofProgram a.program a.symbols).Exact lines p a.program := by
  have hvalues : (movedOptions.windows.toOption.bind fun w =>
      (Program.parse countedSource).toOption.bind fun p =>
        (assemble w countedSource).toOption.map fun a =>
          (decide (∀ d ∈ p.payloads, d.fullSize < 2 ^ 32),
            (Usage.ofProgram a.program a.symbols).instructions,
            (Usage.ofProgram a.program a.symbols).dataBytes,
            (Usage.ofProgram a.program a.symbols).labels)) =
      some (true, 5, 20, 4) := by decide +kernel
  obtain ⟨w, hw, hvalues⟩ := Option.bind_eq_some_iff.1 hvalues
  obtain ⟨p, hp, hvalues⟩ := Option.bind_eq_some_iff.1 hvalues
  obtain ⟨a, ha, hvalues⟩ := Option.map_eq_some_iff.1 hvalues
  obtain ⟨hsizes, hvalues⟩ := Prod.mk.inj hvalues
  obtain ⟨hinstructions, hvalues⟩ := Prod.mk.inj hvalues
  obtain ⟨hbytes, hlabels⟩ := Prod.mk.inj hvalues
  have hwindows := eq_ok_of_toOption hw
  have hparse := eq_ok_of_toOption hp
  have hassemble := eq_ok_of_toOption ha
  have hsizes := of_decide_eq_true hsizes
  obtain ⟨lines, hlines, hexact⟩ := assemble_usage hwindows hparse hassemble hsizes
  exact ⟨w, p, a, lines, hwindows, hparse, hassemble, hsizes, hinstructions, hbytes, hlabels, hlines,
    hexact⟩

end MipsAssembler
