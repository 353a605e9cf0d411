import MipsAssembler.Proofs.Dump
import MipsAssembler.Proofs.Image
import MipsAssembler.Proofs.SourceLabels
import MipsAssembler.Proofs.Stability

/-!
# The symbol table as text

The text of a symbol table has a line for each name that is shown. `assemble_symbols` says which these
are for a source that is assembled: the labels that are defined in its lines, each with the address of
the entry that carries it, and on demand the halves of these addresses.

* The lines ascend strictly, by address and then by name (`pairwise_shownSymbols`). As the order is total
  on the entries of a table, there is one way to sort them, whatever the order was in which they were
  taken out (`eq_shownSymbols`).
* The table records the definitions of the entries of the resolved program (`Program.resolve_records`),
  so that their symbols are all that it has.
-/

namespace MipsAssembler

open ByteString Outcome

/-! ## The order of the lines -/

namespace SymbolTable

/-- Does `x` stand before `y`? It has the lower address, or the same address and the lesser name. -/
def Precedes (x y : ByteString × UInt32) : Prop := x.2 < y.2 ∨ x.2 = y.2 ∧ x.1 < y.1

instance (x y : ByteString × UInt32) : Decidable (Precedes x y) :=
  inferInstanceAs (Decidable (x.2 < y.2 ∨ x.2 = y.2 ∧ x.1 < y.1))

/-- The comparison by address, and by name where the addresses are the same. -/
def symbolOrder : ByteString × UInt32 → ByteString × UInt32 → Ordering :=
  compareLex (compareOn Prod.snd) (compareOn Prod.fst)

instance : Std.TransCmp symbolOrder :=
  inferInstanceAs (Std.TransCmp (compareLex (compareOn Prod.snd) (compareOn Prod.fst)))

section Order

variable {x y : ByteString × UInt32}

theorem symbolOrder_eq_lt : symbolOrder x y = .lt ↔ Precedes x y := by
  rw [symbolOrder, compareLex, Ordering.then_eq_lt, compareOn, compareOn, compare_eq_lt_iff,
    Std.compare_eq_lt, Std.LawfulEqCmp.compare_eq_iff_eq, Precedes]

theorem symbolOrder_eq_eq : symbolOrder x y = .eq ↔ x = y := by
  rw [symbolOrder, compareLex_eq_eq, compareOn, compareOn, Std.LawfulEqCmp.compare_eq_iff_eq,
    Std.LawfulEqCmp.compare_eq_iff_eq, Prod.ext_iff, and_comm]

theorem isLE_symbolOrder : (symbolOrder x y).isLE = true ↔ ¬Precedes y x := by
  rw [Ordering.isLE_iff_ne_gt, Std.OrientedCmp.gt_iff_lt, symbolOrder_eq_lt]

theorem comesBefore_eq : comesBefore x y = (symbolOrder x y).isLE := by
  rw [Bool.eq_iff_iff, Ordering.isLE_iff_eq_lt_or_eq_eq, symbolOrder_eq_lt, symbolOrder_eq_eq,
    comesBefore, Bool.or_eq_true, Bool.and_eq_true, decide_eq_true_eq, beq_iff_eq,
    Ordering.isLE_iff_eq_lt_or_eq_eq, compare_eq_lt_iff, Std.LawfulEqCmp.compare_eq_iff_eq, Precedes,
    Prod.ext_iff, and_or_left, or_assoc, and_comm (a := x.1 = y.1)]

theorem comesBefore_trans (x y z : ByteString × UInt32) (hxy : comesBefore x y = true)
    (hyz : comesBefore y z = true) : comesBefore x z = true := by
  rw [comesBefore_eq] at hxy hyz ⊢
  exact Std.TransCmp.isLE_trans hxy hyz

theorem comesBefore_total (x y : ByteString × UInt32) :
    (comesBefore x y || comesBefore y x) = true := by
  have hswap : symbolOrder x y = (symbolOrder y x).swap := Std.OrientedCmp.eq_swap
  rw [comesBefore_eq, comesBefore_eq, hswap]
  cases symbolOrder y x <;> rfl

end Order

/-- There is one way to sort the entries of a table. -/
theorem eq_of_not_precedes {l l' : List (ByteString × UInt32)}
    (h : l.Pairwise fun x y => ¬Precedes y x) (h' : l'.Pairwise fun x y => ¬Precedes y x)
    (hperm : l.Perm l') : l = l' := by
  refine hperm.eq_of_pairwise (fun x y _ _ hxy hyx => ?_) h h'
  exact symbolOrder_eq_eq.1
    (Std.OrientedCmp.isLE_antisymm (isLE_symbolOrder.2 hxy) (isLE_symbolOrder.2 hyx))

variable (t : SymbolTable) (split : Bool)

theorem shownSymbols_perm :
    (t.shownSymbols split).Perm (t.toList.filter fun x => split || !isHalf x.1) :=
  List.mergeSort_perm ..

theorem sorted_shownSymbols : (t.shownSymbols split).Pairwise fun x y => ¬Precedes y x := by
  have hsorted : (t.shownSymbols split).Pairwise fun x y => comesBefore x y = true :=
    List.pairwise_mergeSort comesBefore_trans comesBefore_total _
  exact hsorted.imp fun hxy => isLE_symbolOrder.1 (comesBefore_eq ▸ hxy)

/-- The lines ascend strictly. -/
theorem pairwise_shownSymbols : (t.shownSymbols split).Pairwise Precedes := by
  have hnodup : (t.shownSymbols split).Nodup :=
    (t.shownSymbols_perm split).nodup_iff.2 (t.nodup_toList.filter _)
  refine (List.pairwise_and_iff.2 ⟨t.sorted_shownSymbols split, hnodup⟩).imp fun ⟨hle, hne⟩ => ?_
  rw [← isLE_symbolOrder, Ordering.isLE_iff_eq_lt_or_eq_eq] at hle
  exact symbolOrder_eq_lt.1 (hle.resolve_right fun heq => hne (symbolOrder_eq_eq.1 heq))

/-- In whatever order the entries of a table are taken out, sorting them gives the same list. -/
theorem eq_shownSymbols {taken sorted : List (ByteString × UInt32)} (htaken : taken.Perm t.toList)
    (hperm : sorted.Perm (taken.filter fun x => split || !isHalf x.1))
    (hsorted : sorted.Pairwise fun x y => ¬Precedes y x) : sorted = t.shownSymbols split := by
  refine eq_of_not_precedes hsorted (t.sorted_shownSymbols split) (hperm.trans ?_)
  exact (htaken.filter _).trans (t.shownSymbols_perm split).symm

end SymbolTable

/-! ## Definitions of a resolved program -/

namespace Program

/-- What the labels of a program define. -/
def definitions (p : Program) : List Definition :=
  Category.all.flatMap fun k => definitionsIn (p.segments k)

/-- Some entry of the program has the address and carries the label. -/
def Carries (p : Program) (label : ByteString) (address : UInt32) : Prop :=
  ∃ k, ∃ s ∈ p.segments k, ∃ e ∈ s.entries,
    label ∈ labelsOf e.place ∧ addressOf? e.place = some address

variable {w : Windows} {p q : Program} {t : SymbolTable}

/-- The table of a resolved program records what its labels define, and these are the labels of the
program before. -/
theorem resolve_records (h : p.resolve w = .ok (q, t)) :
    t.Records q.definitions ∧ q.definitions.map (·.name) = p.labels := by
  obtain ⟨-, placed, hsettles, hplaces⟩ := Program.resolve_settles h
  have hsame : (Category.all.flatMap fun k => definitionsIn ((placed k).map Segment.assign)) =
      q.definitions := by
    refine List.flatMap_congr fun k _ => ?_
    rw [definitionsIn, definitionsIn, List.flatMap_def, List.flatMap_def]
    exact congrArg _ (map_eq_map_of_forall₂ (fun _ _ hs => hs.definitions_eq.symm) (hplaces k))
  rw [← hsame, hsettles.names_eq, labels_expand]
  exact ⟨hsettles.records, rfl⟩

/-- In a resolved program every entry has its address. -/
theorem resolve_addressed (h : p.resolve w = .ok (q, t)) {k : Category} {s : Segment k.Item}
    (hs : s ∈ q.segments k) {e : Entry k.Item} (he : e ∈ s.entries) :
    ∃ a, addressOf? e.place = some a := by
  obtain ⟨-, placed, -, hplaces⟩ := Program.resolve_settles h
  obtain ⟨s₀, hs₀, hsame⟩ := exists_of_mem_right (hplaces k) hs
  obtain ⟨s₁, -, rfl⟩ := List.mem_map.1 hs₀
  have hplace : e.place ∈ s₁.assign.entries.map (·.place) :=
    hsame.places ▸ List.mem_map_of_mem he
  obtain ⟨e₀, he₀, hplace⟩ := List.mem_map.1 hplace
  obtain ⟨e₁, -, a, rfl⟩ := exists_of_mem_right (assignFrom_located ..) he₀
  exact ⟨a, hplace ▸ rfl⟩

theorem mem_definitions (h : p.resolve w = .ok (q, t)) {n : ByteString} {v : UInt32} :
    ⟨n, v⟩ ∈ q.definitions ↔ q.Carries n v := by
  simp only [definitions, definitionsIn, Entry.definitions, List.mem_flatMap, List.mem_map,
    Definition.mk.injEq, Carries]
  constructor
  · rintro ⟨k, -, s, hs, e, he, _, hn, rfl, rfl⟩
    obtain ⟨a, ha⟩ := resolve_addressed h hs he
    exact ⟨k, s, hs, e, he, hn, by rw [ha, Option.getD_some]⟩
  · rintro ⟨k, s, hs, e, he, hn, hv⟩
    exact ⟨k, k.mem_all, s, hs, e, he, n, hn, rfl, by rw [hv, Option.getD_some]⟩

end Program

/-! ## Lines -/

/-- The line of a symbol. -/
def symbolLine (x : ByteString × UInt32) : ByteString := hexWord x.2 ++ "  " ++ x.1

namespace SymbolTable

variable {t : SymbolTable} {ds : List Definition}

/-- The names of labels and of their halves are parts of one line. -/
theorem Records.newline_notMem_symbolLine (h : t.Records ds) (hnames : ∀ d ∈ ds, isName d.name = true)
    {x : ByteString × UInt32} (hx : x ∈ t.toList) : ascii '\n' ∉ symbolLine x := by
  obtain ⟨d, hd, hx⟩ := List.mem_flatMap.1 (h.toList_perm.mem_iff.1 hx)
  have hlabel : ascii '\n' ∉ d.name := fun hmem =>
    absurd (forall_mem_of_isName (hnames d hd) _ hmem) (by decide)
  have hblank : ascii '\n' ∉ ofString "  " := by decide
  have hupper : ascii '\n' ∉ upperEnding := by decide
  have hlower : ascii '\n' ∉ lowerEnding := by decide
  have hname := fst_mem_namesOf hx
  simp only [namesOf, List.mem_cons, List.not_mem_nil, or_false] at hname
  rcases hname with hname | hname | hname <;>
    simp [symbolLine, newline_notMem_hexWord, hblank, hname, hlabel, hupper, hlower]

theorem render_eq (t : SymbolTable) (split : Bool) :
    t.render split = ((t.shownSymbols split).map symbolLine).flatMap line := by
  rw [List.flatMap_map]
  rfl

/-- The text of the table is a list of symbols, one a line and nothing else. They ascend strictly, and
it is the list that comes from the entries of the table in whatever order they are taken out, and
however those that are shown are sorted. -/
structure Lists (t : SymbolTable) (split : Bool) (shown : List (ByteString × UInt32)) : Prop where
  text : t.render split = (shown.map symbolLine).flatMap line
  lines : splitOn (ascii '\n') (t.render split) = shown.map symbolLine ++ [[]]
  ascending : shown.Pairwise Precedes
  unique : ∀ taken sorted : List (ByteString × UInt32), taken.Perm t.toList →
    sorted.Perm (taken.filter fun x => split || !isHalf x.1) →
    (sorted.Pairwise fun x y => ¬Precedes y x) → sorted = shown

theorem Records.lists_shownSymbols (h : t.Records ds) (hnames : ∀ d ∈ ds, isName d.name = true)
    (split : Bool) : t.Lists split (t.shownSymbols split) where
  text := t.render_eq split
  lines := by
    rw [render_eq]
    refine splitOn_lines fun l hl => ?_
    obtain ⟨x, hx, rfl⟩ := List.mem_map.1 hl
    have hshown := (t.shownSymbols_perm split).mem_iff.1 hx
    exact h.newline_notMem_symbolLine hnames (List.mem_of_mem_filter hshown)
  ascending := t.pairwise_shownSymbols split
  unique _ _ := t.eq_shownSymbols split

end SymbolTable

/-- **The printed symbol table is complete and ordered.** When a source is assembled, the text of its
symbol table without halves has one line for each label that is defined in the lines of the source, with
the address of the entry that carries it. With halves it has in addition one line for each half of each
of these addresses. In both cases the lines ascend strictly, by address and then by name, whatever the
order is in which the table is gone through. -/
theorem assemble_symbols {w : Windows} {src : ByteString} {a : Assembly}
    (h : assemble w src = .ok a) :
    ∃ lines labels symbols, sourceLines src = .ok lines ∧ a.symbols.Lists false labels ∧
      (labels.map Prod.fst).Perm (lines.flatMap (·.labels)) ∧
      (∀ n v, (n, v) ∈ labels ↔ a.program.Carries n v) ∧
      a.symbols.Lists true symbols ∧
      symbols.Perm (labels.flatMap fun x => (Definition.mk x.1 x.2).symbols) := by
  obtain ⟨p, hparse, hresolve, -⟩ := assemble_eq_ok h
  obtain ⟨hrecords, hlabels⟩ := Program.resolve_records hresolve
  obtain ⟨lines, hlines, hsource, -⟩ := Program.parse_labels hparse
  have hnames : ∀ d ∈ a.program.definitions, isName d.name = true := fun d hd =>
    (Program.parse_written hparse).isName_of_mem_labels (hlabels ▸ List.mem_map_of_mem hd)
  -- without halves the symbols are the definitions, with halves they are all that comes with them
  have hwhole : (a.symbols.shownSymbols false).Perm
      (a.program.definitions.map fun d => (d.name, d.address)) :=
    (a.symbols.shownSymbols_perm false).trans (hrecords.filter_toList_perm hnames)
  have hall : (a.symbols.shownSymbols true).Perm (a.program.definitions.flatMap (·.symbols)) := by
    have hperm := a.symbols.shownSymbols_perm true
    rw [List.filter_eq_self.2 fun _ _ => Bool.true_or _] at hperm
    exact hperm.trans hrecords.toList_perm
  refine ⟨lines, _, _, hlines, hrecords.lists_shownSymbols hnames false, ?_, fun n v => ?_,
    hrecords.lists_shownSymbols hnames true, ?_⟩
  · have hfirst := hwhole.map Prod.fst
    rw [List.map_map] at hfirst
    exact (hfirst.trans (.of_eq hlabels)).trans hsource
  · rw [hwhole.mem_iff, ← Program.mem_definitions hresolve, List.mem_map]
    constructor
    · rintro ⟨d, hd, hx⟩
      obtain ⟨rfl, rfl⟩ := Prod.mk.inj hx
      exact hd
    · exact fun hd => ⟨_, hd, rfl⟩
  · have hsymbols := hwhole.flatMap_right fun x => (Definition.mk x.1 x.2).symbols
    rw [List.flatMap_map] at hsymbols
    exact hall.trans hsymbols.symm

/-- Four labels at one address, two of them on one line, and one of a pseudo instruction. -/
def sharedSource : ByteString :=
  ".data\nz: a:\nb.1: .space 0\n_B: .word 5\n.text\nmain: la $a0, z\nend: nop\n"

/-- The labels as they are printed. -/
def sharedLabels : List (ByteString × UInt32) :=
  [("main", 0x0A000000), ("end", 0x0A000008), ("_B", 0x10000000), ("a", 0x10000000),
   ("b.1", 0x10000000), ("z", 0x10000000)]

/-- Labels at one address come in the order of their bytes, which is not that of the source. -/
theorem assemble_symbols_shared :
    ∃ a lines symbols, assemble {} sharedSource = .ok a ∧ sourceLines sharedSource = .ok lines ∧
      a.symbols.Lists false sharedLabels ∧
      (sharedLabels.map Prod.fst).Perm (lines.flatMap (·.labels)) ∧
      (∀ n v, (n, v) ∈ sharedLabels ↔ a.program.Carries n v) ∧
      a.symbols.Lists true symbols ∧
      symbols.Perm (sharedLabels.flatMap fun x => (Definition.mk x.1 x.2).symbols) ∧
      a.symbols.render false = ofString ("0x0A000000  main\n0x0A000008  end\n" ++
        "0x10000000  _B\n0x10000000  a\n0x10000000  b.1\n0x10000000  z\n") := by
  have hshown : ((assemble {} sharedSource).toOption.map fun a =>
      sharedLabels.isPerm (a.symbols.toList.filter fun x => !isHalf x.1)) = some true := by
    decide +kernel
  obtain ⟨a, ha, hshown⟩ := Option.map_eq_some_iff.1 hshown
  have hassemble := eq_ok_of_toOption ha
  obtain ⟨lines, labels, symbols, hlines, hlists, hlisted⟩ := assemble_symbols hassemble
  -- there is one way to sort the labels, and this is it
  have hsorted : sharedLabels.Pairwise fun x y => ¬SymbolTable.Precedes y x := by decide +kernel
  obtain rfl : sharedLabels = labels :=
    hlists.unique a.symbols.toList sharedLabels (.refl _) (List.isPerm_iff.1 hshown) hsorted
  refine ⟨a, lines, symbols, hassemble, hlines, hlists, hlisted.1, hlisted.2.1, hlisted.2.2.1,
    hlisted.2.2.2, hlists.text.trans ?_⟩
  decide +kernel

end MipsAssembler
