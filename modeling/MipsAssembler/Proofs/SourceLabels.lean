import Mathlib.Data.List.Nodup
import MipsAssembler.Proofs.SymbolHistory
import MipsAssembler.Proofs.Transcription

/-!
# The labels of a source, of its program and of its symbol table

A label goes a long way from the line where it is defined to the symbol table: it waits for an entry,
is carried by it, and is defined there together with its halves. Nothing is lost or added on this way.

* The labels of a program are those of the lines of its source, each as often as it occurs there
  (`Program.parse_labels`). Every entry belongs to one line, so that the entries of the lines are all
  entries (`Program.Transcribes.deposits_perm`).
* A table that records some definitions has their symbols, each once (`Records.toList_perm`). Those that
  do not end like halves are the labels (`Records.filter_toList_perm`, `Program.Written.names_perm`),
  because a label of a source holds no `@`.
-/

namespace MipsAssembler

open ByteString Outcome

/-! ## From the source to the program -/

/-- A list is made of the parts that have the same key, if all its keys are listed. -/
theorem perm_flatMap_filter {α κ : Type} [DecidableEq κ] (key : α → κ) {xs : List α} {keys : List κ}
    (hkeys : keys.Nodup) (h : ∀ x ∈ xs, key x ∈ keys) :
    xs.Perm (keys.flatMap fun k => xs.filter fun x => key x = k) := by
  induction keys generalizing xs with
  | nil =>
    have hnil : xs = [] := List.eq_nil_iff_forall_not_mem.2 fun x hx => List.not_mem_nil (h x hx)
    rw [hnil]
    rfl
  | cons k keys ih =>
    obtain ⟨hk, hkeys⟩ := List.nodup_cons.1 hkeys
    have hrest : ∀ x ∈ xs.filter (fun x => !decide (key x = k)), key x ∈ keys := by
      intro x hx
      obtain ⟨hx, hne⟩ := List.mem_filter.1 hx
      exact (List.mem_cons.1 (h x hx)).resolve_left (by simpa using hne)
    have hsame : ∀ k' ∈ keys,
        ((xs.filter fun x => !decide (key x = k)).filter fun x => key x = k') =
          xs.filter fun x => key x = k' := by
      intro k' hk'
      rw [List.filter_filter]
      refine List.filter_congr fun x _ => ?_
      by_cases hx : key x = k'
      · have hne : key x ≠ k := fun hxk => hk (hxk ▸ hx ▸ hk')
        simp [hx, hx ▸ hne]
      · simp [hx]
    have hparts := ih hkeys hrest
    rw [List.flatMap_congr hsame] at hparts
    rw [List.flatMap_cons]
    exact (List.filter_append_perm _ xs).symm.trans (hparts.append_left _)

theorem labels_depositsIn {α : Type} (k : Category) (f : α → Instruction ⊕ Payload)
    (segments : List (Segment α)) :
    (depositsIn k f segments).flatMap (fun x => labelsOf x.place) = labelsIn segments := by
  rw [labelsIn, ← List.zipIdx_map_fst 0 segments, List.flatMap_map]
  simp only [depositsIn, List.flatMap_assoc, List.flatMap_map, List.zipIdx_map_fst]

namespace Program

/-- The labels of a program are those of its entries. -/
theorem labels_eq (p : Program) : p.labels = p.deposits.flatMap fun x => labelsOf x.place := by
  rw [labels, deposits, List.flatMap_assoc]
  refine List.flatMap_congr fun k _ => ?_
  cases k with
  | text m => exact (labels_depositsIn ..).symm
  | data m => exact (labels_depositsIn ..).symm

/-- The entries of all lines are all entries. -/
theorem Transcribes.deposits_perm {lines : List SourceLine} {p : Program} (h : p.Transcribes lines)
    (hsorted : lines.Pairwise fun l l' => l.number < l'.number) :
    p.deposits.Perm (lines.flatMap fun l => p.depositsAt l.number) := by
  have hnumbers : (lines.map fun l => (l.number : Int)).Nodup :=
    List.pairwise_map.2 (hsorted.imp fun hlt heq => by omega)
  have hparts := perm_flatMap_filter Deposit.line hnumbers fun x hx => by
    obtain ⟨l, hl, hline⟩ := h.sourced x hx
    exact List.mem_map.2 ⟨l, hl, hline.symm⟩
  rwa [List.flatMap_map] at hparts

/-- What the lines of a source say of the labels and of the segments of its program. -/
theorem parse_labels {src : ByteString} {p : Program} (h : Program.parse src = .ok p) :
    ∃ lines, sourceLines src = .ok lines ∧ p.labels.Perm (lines.flatMap (·.labels)) ∧
      ∀ k, (p.segments k).length = (openings lines).count k := by
  obtain ⟨lines, d, hlines, hreads, hpending, rfl⟩ := Program.parse_reads h
  have hsorted := pairwise_number_of_sourceLines hlines
  have hkeeps : d.Keeps lines := Draft.keeps_empty.reads hsorted hreads
  have hcarried := hkeeps.program.labels_waiting (List.append_nil lines).symm
  rw [← hkeeps.pending, hpending, List.append_nil] at hcarried
  refine ⟨lines, hlines, ?_, hkeeps.program.segments⟩
  rw [labels_eq, ← hcarried, ← List.flatMap_assoc]
  exact (hkeeps.program.deposits_perm hsorted).flatMap_right _

end Program

/-! ## From the program to the table -/

theorem isHalf_append (n : ByteString) {ending : ByteString}
    (h : ending = upperEnding ∨ ending = lowerEnding) : isHalf (n ++ ending) = true := by
  rw [isHalf, Bool.or_eq_true, List.isSuffixOf_iff_suffix, List.isSuffixOf_iff_suffix]
  rcases h with rfl | rfl
  · exact .inl (List.suffix_append ..)
  · exact .inr (List.suffix_append ..)

namespace SymbolTable

theorem mem_toList {t : SymbolTable} {n : ByteString} {v : UInt32} :
    (n, v) ∈ t.toList ↔ t.lookup n = some v :=
  Std.ExtTreeMap.mem_toList_iff_getElem?_eq_some

theorem map_fst_toList (t : SymbolTable) : t.toList.map Prod.fst = t.names :=
  Std.ExtTreeMap.map_fst_toList_eq_keys

theorem nodup_toList (t : SymbolTable) : t.toList.Nodup :=
  List.Nodup.of_map Prod.fst (t.map_fst_toList ▸ t.nodup_names)

variable {t : SymbolTable} {ds : List Definition}

theorem fst_mem_namesOf {d : Definition} {x : ByteString × UInt32} (h : x ∈ d.symbols) :
    x.1 ∈ namesOf d.name := Definition.exists_mem_symbols.1 ⟨_, h⟩

/-- The entries of a table are the symbols of what it records, each once. -/
theorem Records.toList_perm (h : t.Records ds) : t.toList.Perm (ds.flatMap Definition.symbols) := by
  have hnodup : (ds.flatMap Definition.symbols).Nodup := by
    refine List.nodup_flatMap.2 ⟨fun d _ => .of_map Prod.fst (nodup_namesOf d.name), ?_⟩
    refine (List.pairwise_map.1 h.apart).imp fun hapart x hx hx' => ?_
    exact hapart x.1 (fst_mem_namesOf hx) (fst_mem_namesOf hx')
  refine (List.perm_ext_iff_of_nodup t.nodup_toList hnodup).2 fun x => ?_
  obtain ⟨n, v⟩ := x
  rw [mem_toList, h.lookup_iff, List.mem_flatMap]

/-- Those that do not end like halves are the labels themselves. -/
theorem Records.filter_toList_perm (h : t.Records ds) (hnames : ∀ d ∈ ds, isName d.name = true) :
    (t.toList.filter fun x => !isHalf x.1).Perm (ds.map fun d => (d.name, d.address)) := by
  have hsymbols : ∀ d ∈ ds, (d.symbols.filter fun x => !isHalf x.1) = [(d.name, d.address)] := by
    intro d hd
    have hwhole := isHalf_of_notMem (not_mem_of_isName (hnames d hd))
    simp [Definition.symbols, hwhole, isHalf_append]
  have hfilter := h.toList_perm.filter fun x => !isHalf x.1
  rwa [List.filter_flatMap, List.flatMap_congr hsymbols, ← List.map_eq_flatMap] at hfilter

end SymbolTable

/-- The names of a table that are no halves are the labels of the program. -/
theorem Program.Written.names_perm {w : Windows} {p q : Program} {t : SymbolTable} (hw : p.Written)
    (h : p.resolve w = .ok (q, t)) : (t.names.filter (!isHalf ·)).Perm p.labels := by
  obtain ⟨-, placed, hsettles, -⟩ := Program.resolve_settles h
  have hlabels := hsettles.names_eq
  rw [p.labels_expand] at hlabels
  have hperm := (hsettles.records.filter_toList_perm fun d hd =>
    hw.isName_of_mem_labels (hlabels ▸ List.mem_map_of_mem hd)).map Prod.fst
  rw [List.map_map] at hperm
  rw [← t.map_fst_toList, List.filter_map, ← hlabels]
  exact hperm

end MipsAssembler
