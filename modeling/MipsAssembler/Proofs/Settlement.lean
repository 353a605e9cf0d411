import Mathlib.Data.List.Flatten
import MipsAssembler.Proofs.Addressing
import MipsAssembler.Proofs.Symbols

/-!
# Settling a program

A program is settled category by category. What comes out is described here without the order in
which that happens: `Settles` says where the segments of every category are placed and what the
symbol table records. `Program.settle_eq_ok` shows that settling succeeds exactly if there is such a
placement, and `Settles.unique` that there is at most one.

The labels of a settled program are those of its source (`Settles.names_eq`), and no name comes with
two of them (`Settles.apart`).
-/

namespace MipsAssembler

open ByteString Outcome

variable {α : Type}

/-! ## Programs by category -/

/-- What the segments of a category hold. -/
abbrev Category.Item : Category → Type
  | .text _ => Instruction
  | .data _ => Payload

instance (k : Category) : Sized k.Item :=
  match k with
  | .text _ => inferInstanceAs (Sized Instruction)
  | .data _ => inferInstanceAs (Sized Payload)

/-- The segments of a category. -/
def Program.segments (p : Program) : (k : Category) → List (Segment k.Item)
  | .text m => p.text m
  | .data m => p.data m

/-- The program with given segments. -/
def Program.ofSegments (segments : (k : Category) → List (Segment k.Item)) : Program where
  userText := segments (.text .user)
  userData := segments (.data .user)
  kernelText := segments (.text .kernel)
  kernelData := segments (.data .kernel)

theorem Program.segments_ofSegments (segments : (k : Category) → List (Segment k.Item))
    (k : Category) : (Program.ofSegments segments).segments k = segments k := by
  rcases k with (_ | _) | (_ | _) <;> rfl

theorem Program.segments_expand_text (p : Program) (m : Mode) :
    p.expand.segments (.text m) = (p.text m).map Segment.expand := by
  cases m <;> rfl

theorem Program.segments_expand_data (p : Program) (m : Mode) :
    p.expand.segments (.data m) = p.data m := by
  cases m <;> rfl

theorem Program.text_mapText (p : Program)
    (f : List (Segment Instruction) → List (Segment Instruction)) (m m' : Mode) :
    (p.mapText f m).text m' = if m' = m then f (p.text m) else p.text m' := by
  cases m <;> cases m' <;> rfl

theorem Program.data_mapText (p : Program)
    (f : List (Segment Instruction) → List (Segment Instruction)) (m : Mode) :
    (p.mapText f m).data = p.data := by
  cases m <;> rfl

theorem Program.data_mapData (p : Program) (f : List (Segment Payload) → List (Segment Payload))
    (m m' : Mode) : (p.mapData f m).data m' = if m' = m then f (p.data m) else p.data m' := by
  cases m <;> cases m' <;> rfl

theorem Program.text_mapData (p : Program) (f : List (Segment Payload) → List (Segment Payload))
    (m : Mode) : (p.mapData f m).text = p.text := by
  cases m <;> rfl

theorem Category.mem_all (k : Category) : k ∈ Category.all := by
  rcases k with (_ | _) | (_ | _) <;> decide

/-! ## Windows -/

/-- What is checked of a window. -/
theorem Windows.checkWindow_eq_ok {r : Region} :
    checkWindow r = .ok () ↔ r.start < r.stop ∧ r.start ≠ 0 := by
  have hcheck : r.check = .ok () ↔ r.start < r.stop := by
    rw [Region.check, Region.isEmpty, ← UInt32.not_le]
    by_cases h : r.stop ≤ r.start <;> simp [h]
  have hzero : (if r.start = 0 then .error (.regionAtZero r) else .ok () :
      Except PlacementError Unit) = .ok () ↔ r.start ≠ 0 := by
    by_cases h : r.start = 0 <;> simp [h]
  rw [checkWindow, bind_eq_ok, ← hcheck, ← hzero]
  constructor
  · rintro ⟨u, h⟩
    exact h
  · intro h
    exact ⟨(), h⟩

theorem Windows.check_region {w : Windows} (h : w.check = .ok ()) (k : Category) :
    (w.region k).start < (w.region k).stop ∧ (w.region k).start ≠ 0 :=
  checkWindow_eq_ok.1 (forM_eq_ok h k k.mem_all)

/-- The last address of a window that holds one is the one before its end. -/
theorem Region.toNat_last {r : Region} (h : r.start < r.stop) : r.last.toNat + 1 = r.stop.toNat := by
  rw [UInt32.lt_iff_toNat_lt] at h
  have hone : (1 : UInt32) ≤ r.stop := UInt32.le_iff_toNat_le.2 (Nat.one_le_of_lt h)
  rw [Region.last, UInt32.toNat_sub_of_le _ _ hone]
  exact Nat.sub_add_cancel (Nat.one_le_of_lt h)

/-! ## Labels -/

/-- The labels of some segments, in the order of the source. -/
def labelsIn (segments : List (Segment α)) : List ByteString :=
  segments.flatMap fun s => s.entries.flatMap fun e => labelsOf e.place

/-- The labels of a program, each as often as it occurs. -/
def Program.labels (p : Program) : List ByteString :=
  Category.all.flatMap fun k => labelsIn (p.segments k)

theorem Instruction.expand_ne_nil (inst : Instruction) : inst.expand ≠ [] := by
  fun_cases Instruction.expand inst <;> simp [Instruction.expand.loadPair]

theorem Entry.labels_expand (e : Entry Instruction) :
    (e.expand.flatMap fun e' => labelsOf e'.place) = labelsOf e.place := by
  rw [Entry.expand]
  split
  · rename_i hnil
    exact absurd hnil e.item.expand_ne_nil
  · simp [labelsOf, List.flatMap_map]

/-- Pseudo instructions are replaced, labels stay. -/
theorem Program.labels_expand (p : Program) : p.expand.labels = p.labels := by
  have hsame : ∀ k, labelsIn (p.expand.segments k) = labelsIn (p.segments k) := by
    rintro (m | m)
    · rw [Program.segments_expand_text]
      simp only [labelsIn, Segment.expand, List.flatMap_map, List.flatMap_assoc, Entry.labels_expand]
      rfl
    · rw [Program.segments_expand_data]
      rfl
  simp only [Program.labels, hsame]

/-- Placing segments keeps their labels. -/
theorem labelsIn_placeSegments [Sized α] {k : Category} {window : Region}
    {segments placed : List (Segment α)} (h : placeSegments k window segments = .ok placed) :
    labelsIn placed = labelsIn segments := by
  simp only [labelsIn, List.flatMap_def]
  refine congrArg List.flatten (map_eq_map_of_forall₂ (fun s s' hs => ?_) (placeSegments_entries h)).symm
  rw [hs]

@[simp] theorem labelsOf_placeAt (a : UInt32) (place : Option Location) :
    labelsOf (placeAt a place) = labelsOf place := rfl

/-- Addresses change no labels. -/
theorem labelsIn_assign [Sized α] (placed : List (Segment α)) :
    labelsIn (placed.map Segment.assign) = labelsIn placed := by
  have hentries : ∀ a (es : List (Entry α)), ((assignFrom a es).flatMap fun e => labelsOf e.place) =
      es.flatMap fun e => labelsOf e.place := by
    intro a es
    induction es generalizing a with
    | nil => rfl
    | cons e es ih => simp only [assignFrom, List.flatMap_cons, labelsOf_placeAt, ih]
  simp only [labelsIn, List.flatMap_map, Segment.assign, hentries]

/-! ## Definitions -/

/-- What the labels of an entry define once it has its address. -/
def Entry.definitions (e : Entry α) : List Definition :=
  (labelsOf e.place).map fun n => ⟨n, (addressOf? e.place).getD 0⟩

/-- What the labels of some segments define. -/
def definitionsIn (segments : List (Segment α)) : List Definition :=
  segments.flatMap fun s => s.entries.flatMap Entry.definitions

theorem names_definitionsIn (segments : List (Segment α)) :
    (definitionsIn segments).map (·.name) = labelsIn segments := by
  simp only [definitionsIn, labelsIn, Entry.definitions, List.map_flatMap, List.map_map,
    Function.comp_def, List.map_id_fun', id]

theorem definitions_map_define (names : List ByteString) (a : UInt32) (line : Int) :
    definitions (names.map (.define · a line)) = names.map fun n => ⟨n, a⟩ := by
  simp [definitions, List.filterMap_map, Function.comp_def, LabelAction.definition?]

/-- Without a failure, the steps of entries define their labels at their addresses. -/
theorem definitions_actionsFrom [Sized α] {k : Category} {window : Region} {start : UInt32} {a : Nat}
    {es : List (Entry α)} (h : ∀ e, .fail e ∉ actionsFrom k window start a es) :
    definitions (actionsFrom k window start a es) =
      (assignFrom a es).flatMap Entry.definitions := by
  induction es generalizing a with
  | nil => rfl
  | cons e es ih =>
    rw [actionsFrom] at h ⊢
    split at h
    · simp at h
    · rename_i hfit
      rw [if_neg hfit, definitions_append, assignFrom, List.flatMap_cons]
      congr 1
      · exact definitions_map_define ..
      · exact ih fun err hmem => h err (List.mem_append_right _ hmem)

/-- Whatever the steps of entries define is a label of theirs, each in its turn. -/
theorem names_actionsFrom_sublist [Sized α] (k : Category) (window : Region) (start : UInt32)
    (a : Nat) (es : List (Entry α)) :
    ((definitions (actionsFrom k window start a es)).map (·.name)).Sublist
      (es.flatMap fun e => labelsOf e.place) := by
  induction es generalizing a with
  | nil => exact .slnil
  | cons e es ih =>
    rw [actionsFrom]
    split
    · exact List.nil_sublist _
    · rw [definitions_append, List.map_append, List.flatMap_cons]
      refine List.Sublist.append ?_ (ih _)
      simp [definitions_map_define, Function.comp_def]

theorem definitions_flatMap {β : Type} (f : β → List LabelAction) (l : List β) :
    definitions (l.flatMap f) = l.flatMap fun b => definitions (f b) := by
  simp only [definitions, List.filterMap_flatMap]

theorem definitions_labelActions [Sized α] {k : Category} {window : Region}
    {placed : List (Segment α)} (h : ∀ e, .fail e ∉ labelActions k window placed) :
    definitions (labelActions k window placed) =
      definitionsIn (placed.map Segment.assign) := by
  rw [labelActions, definitions_flatMap, definitionsIn, List.flatMap_map]
  refine List.flatMap_congr fun s hs => definitions_actionsFrom fun e he => ?_
  exact h e (List.mem_flatMap.2 ⟨s, hs, he⟩)

theorem names_labelActions_sublist [Sized α] (k : Category) (window : Region)
    (placed : List (Segment α)) :
    ((definitions (labelActions k window placed)).map (·.name)).Sublist
      (labelsIn placed) := by
  rw [labelActions, definitions_flatMap, List.map_flatMap]
  exact List.Sublist.flatMap_right _ fun s _ => names_actionsFrom_sublist ..

/-! ## Settled programs -/

/-- The segments of every category are placed, their entries fit, and the table records their
labels. -/
structure Settles (w : Windows) (p : Program) (placed : (k : Category) → List (Segment k.Item))
    (t : SymbolTable) : Prop where
  place : ∀ k, placeSegments k (w.region k) (p.segments k) = .ok (placed k)
  fits : ∀ k e, .fail e ∉ labelActions k (w.region k) (placed k)
  records : t.Records (Category.all.flatMap fun k => definitionsIn ((placed k).map Segment.assign))

namespace Settles

variable {w : Windows} {p : Program} {placed placed' : (k : Category) → List (Segment k.Item)}
  {t t' : SymbolTable}

/-- There is one way to place a program. -/
theorem unique (h : Settles w p placed t) (h' : Settles w p placed' t') :
    placed = placed' ∧ t = t' := by
  obtain rfl : placed = placed' :=
    funext fun k => Except.ok.inj ((h.place k).symm.trans (h'.place k))
  exact ⟨rfl, h.records.unique h'.records⟩

/-- The labels that are defined are those of the program. -/
theorem names_eq (h : Settles w p placed t) :
    (Category.all.flatMap fun k => definitionsIn ((placed k).map Segment.assign)).map (·.name) =
      p.labels := by
  rw [Program.labels, List.map_flatMap]
  refine List.flatMap_congr fun k _ => ?_
  rw [names_definitionsIn, labelsIn_assign, labelsIn_placeSegments (h.place k)]

/-- No name comes with two labels of a program that can be settled. -/
theorem apart (h : Settles w p placed t) : p.labels.Pairwise NamesApart :=
  h.names_eq ▸ h.records.apart

end Settles

/-- The categories in the order in which they are settled. -/
def settleOrder : List Category := [.text .user, .text .kernel, .data .user, .data .kernel]

theorem settleOrder_perm : settleOrder.Perm Category.all :=
  .cons _ (.swap ..)

/-- Settling places all categories and does their steps on one table, category after category. -/
theorem Program.settle_eq_ok_foldlM {w : Windows} {p q : Program} {t : SymbolTable} :
    p.settle w = .ok (q, t) ↔ ∃ placed : (k : Category) → List (Segment k.Item),
      (∀ k, placeSegments k (w.region k) (p.segments k) = .ok (placed k)) ∧
      (settleOrder.flatMap fun k => labelActions k (w.region k) (placed k)).foldlM
        LabelAction.apply {} = .ok t ∧
      ∀ k, q.segments k = (placed k).map Segment.assign := by
  constructor
  · intro h
    rw [Program.settle] at h
    obtain ⟨⟨userText, t₁⟩, h₁, h⟩ := bind_eq_ok.1 h
    obtain ⟨⟨kernelText, t₂⟩, h₂, h⟩ := bind_eq_ok.1 h
    obtain ⟨⟨userData, t₃⟩, h₃, h⟩ := bind_eq_ok.1 h
    obtain ⟨⟨kernelData, t₄⟩, h₄, h⟩ := bind_eq_ok.1 h
    obtain ⟨rfl, rfl⟩ := Prod.mk.inj (pure_eq_ok.1 h)
    obtain ⟨placed₁, hp₁, ht₁, rfl⟩ := MipsAssembler.settle_eq_ok.1 h₁
    obtain ⟨placed₂, hp₂, ht₂, rfl⟩ := MipsAssembler.settle_eq_ok.1 h₂
    obtain ⟨placed₃, hp₃, ht₃, rfl⟩ := MipsAssembler.settle_eq_ok.1 h₃
    obtain ⟨placed₄, hp₄, ht₄, rfl⟩ := MipsAssembler.settle_eq_ok.1 h₄
    let placed : Program :=
      { userText := placed₁, kernelText := placed₂, userData := placed₃, kernelData := placed₄ }
    refine ⟨placed.segments, ?_, ?_, ?_⟩
    · rintro ((_ | _) | (_ | _)) <;> assumption
    · simp only [settleOrder, List.flatMap_cons, List.flatMap_nil, List.append_nil, List.foldlM_append]
      exact bind_eq_ok.2 ⟨t₁, ht₁, bind_eq_ok.2 ⟨t₂, ht₂, bind_eq_ok.2 ⟨t₃, ht₃, ht₄⟩⟩⟩
    · rintro ((_ | _) | (_ | _)) <;> rfl
  · rintro ⟨placed, hp, ht, hq⟩
    simp only [settleOrder, List.flatMap_cons, List.flatMap_nil, List.append_nil,
      List.foldlM_append] at ht
    obtain ⟨t₁, ht₁, ht⟩ := bind_eq_ok.1 ht
    obtain ⟨t₂, ht₂, ht⟩ := bind_eq_ok.1 ht
    obtain ⟨t₃, ht₃, ht₄⟩ := bind_eq_ok.1 ht
    have hs : ∀ k t t', (labelActions k (w.region k) (placed k)).foldlM LabelAction.apply t = .ok t' →
        MipsAssembler.settle k (w.region k) (p.segments k) t = .ok (q.segments k, t') := by
      intro k t t' hk
      exact MipsAssembler.settle_eq_ok.2 ⟨placed k, hp k, hk, hq k⟩
    rw [Program.settle]
    exact bind_eq_ok.2 ⟨_, hs _ _ _ ht₁, bind_eq_ok.2 ⟨_, hs _ _ _ ht₂,
      bind_eq_ok.2 ⟨_, hs _ _ _ ht₃, bind_eq_ok.2 ⟨_, hs _ _ _ ht₄, rfl⟩⟩⟩⟩

/-- A program can be settled exactly if there is a placement for it. -/
theorem Program.settle_eq_ok {w : Windows} {p q : Program} {t : SymbolTable} :
    p.settle w = .ok (q, t) ↔ ∃ placed, Settles w p placed t ∧
      ∀ k, q.segments k = (placed k).map Segment.assign := by
  rw [Program.settle_eq_ok_foldlM]
  refine exists_congr fun placed => ?_
  rw [SymbolTable.records_empty.foldlM_apply, List.nil_append, definitions_flatMap]
  have hfail : (∀ e, LabelAction.fail e ∉ settleOrder.flatMap fun k =>
      labelActions k (w.region k) (placed k)) ↔
      ∀ k e, .fail e ∉ labelActions k (w.region k) (placed k) := by
    constructor
    · intro h k e he
      exact h e (List.mem_flatMap.2 ⟨k, settleOrder_perm.mem_iff.2 k.mem_all, he⟩)
    · intro h e he
      obtain ⟨k, -, hk⟩ := List.mem_flatMap.1 he
      exact h k e hk
  rw [hfail]
  -- the table does not depend on the order in which the categories were settled
  have hperm (hfits : ∀ k e, .fail e ∉ labelActions k (w.region k) (placed k)) :
      (settleOrder.flatMap fun k => definitions (labelActions k (w.region k) (placed k))).Perm
        (Category.all.flatMap fun k => definitionsIn ((placed k).map Segment.assign)) := by
    simp only [fun k => definitions_labelActions (hfits k)]
    exact settleOrder_perm.flatMap_right _
  constructor
  · rintro ⟨hp, ⟨hfits, hrec⟩, hq⟩
    exact ⟨⟨hp, hfits, hrec.perm (hperm hfits)⟩, hq⟩
  · rintro ⟨⟨hp, hfits, hrec⟩, hq⟩
    exact ⟨hp, ⟨hfits, hrec.perm (hperm hfits).symm⟩, hq⟩

theorem Settles.settle_eq_ok {w : Windows} {p : Program}
    {placed : (k : Category) → List (Segment k.Item)} {t : SymbolTable}
    (h : Settles w p placed t) :
    p.settle w = .ok (Program.ofSegments fun k => (placed k).map Segment.assign, t) :=
  Program.settle_eq_ok.2 ⟨placed, h, Program.segments_ofSegments _⟩

end MipsAssembler
