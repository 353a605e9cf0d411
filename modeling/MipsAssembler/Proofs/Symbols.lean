import Mathlib.Data.List.Perm.Basic
import MipsAssembler.Program.Addressing
import MipsAssembler.Proofs.Outcome

/-!
# Symbol tables and what was defined in them

A label brings three names into a symbol table, its own and those of the halves of its address. A
table `Records` a list of definitions if it holds exactly what these bring, and no name comes with
two of them.

* A further label can be defined exactly if the longer list can be recorded
  (`Records.defineSplit_eq_ok`), and so it is with all the steps of a category
  (`Records.foldlM_apply`).
* The order of the definitions does not matter (`Records.unique`): what a table holds in the end
  depends only on what was defined.
-/

namespace MipsAssembler

open ByteString Outcome

/-! ## The names that come with a label -/

/-- The names that come with a label: its own, and those of the halves of its address. -/
def namesOf (label : ByteString) : List ByteString :=
  [label, label ++ upperEnding, label ++ lowerEnding]

/-- No name comes with both labels. -/
def NamesApart (n m : ByteString) : Prop := ∀ x ∈ namesOf n, x ∉ namesOf m

instance (n m : ByteString) : Decidable (NamesApart n m) :=
  inferInstanceAs (Decidable (∀ x ∈ namesOf n, x ∉ namesOf m))

theorem NamesApart.symm {n m : ByteString} (h : NamesApart n m) : NamesApart m n :=
  fun x hm hn => h x hn hm

theorem append_ending_ne (n : ByteString) {ending : ByteString} (h : ending ≠ []) :
    n ++ ending ≠ n := by
  simpa using h

theorem append_upperEnding_ne (n m : ByteString) : n ++ upperEnding ≠ m ++ lowerEnding := by
  intro h
  have hlength : upperEnding.length = lowerEnding.length := by decide +kernel
  exact absurd (List.append_inj' h hlength).2 (by decide +kernel)

/-! ## Tables -/

namespace SymbolTable

theorem lookup_insert (t : SymbolTable) (n m : ByteString) (v : UInt32) :
    (t.insert n v).lookup m = if n = m then some v else t.lookup m := by
  simp only [lookup, insert, Std.ExtTreeMap.getElem?_insert, Std.LawfulEqCmp.compare_eq_iff_eq]

theorem contains_eq_isSome (t : SymbolTable) (n : ByteString) :
    t.contains n = (t.lookup n).isSome := Std.ExtTreeMap.contains_eq_isSome_getElem?

/-- A table is known by what is found in it. -/
theorem eq_iff_lookup {t t' : SymbolTable} :
    t = t' ↔ ∀ x v, t.lookup x = some v ↔ t'.lookup x = some v := by
  refine ⟨fun h x v => h ▸ Iff.rfl, fun h => ?_⟩
  obtain ⟨symbols⟩ := t
  obtain ⟨symbols'⟩ := t'
  congr 1
  exact Std.ExtTreeMap.ext_getElem? fun x => Option.ext fun v => h x v

/-- A name that is new is all that is. -/
theorem lookup_insert_eq_some {t : SymbolTable} {n : ByteString} (h : t.lookup n = none) (a : UInt32)
    (x : ByteString) (v : UInt32) :
    (t.insert n a).lookup x = some v ↔ (x, v) = (n, a) ∨ t.lookup x = some v := by
  rw [lookup_insert]
  by_cases hx : n = x
  · subst hx
    simp [h, eq_comm]
  · simp [hx, Ne.symm hx]

end SymbolTable

/-- A label and the address that it is given. -/
structure Definition where
  name : ByteString
  address : UInt32
  deriving DecidableEq, Repr

/-- What a definition brings into a table. -/
def Definition.symbols (d : Definition) : List (ByteString × UInt32) :=
  [(d.name, d.address), (d.name ++ upperEnding, d.address / 0x10000),
   (d.name ++ lowerEnding, d.address % 0x10000)]

theorem Definition.exists_mem_symbols {d : Definition} {x : ByteString} :
    (∃ v, (x, v) ∈ d.symbols) ↔ x ∈ namesOf d.name := by
  simp [Definition.symbols, namesOf, exists_or]

namespace SymbolTable

theorem requireNew_cons (label x : ByteString) (names : List ByteString) (t : SymbolTable) :
    requireNew label (x :: names) t =
      if t.contains x then .error ⟨label⟩ t else requireNew label names t := by
  change ((if t.contains x then throw ⟨label⟩ else pure () :
    EStateM Redefinition SymbolTable Unit) >>= fun _ => requireNew label names) t = _
  split <;> rfl

section Guarded

variable {label : ByteString} {names : List ByteString} {change : SymbolTable → SymbolTable}
  {t t' : SymbolTable}

/-- The check of some names changes nothing, and a change that comes after it is made exactly if none
of them is defined. -/
theorem requireNew_modify :
    (requireNew label names >>= fun _ => modify change) t =
      if ∃ x ∈ names, (t.lookup x).isSome then .error ⟨label⟩ t else .ok () (change t) := by
  change EStateM.bind _ _ t = _
  rw [EStateM.bind]
  induction names with
  | nil => simp [requireNew]; rfl
  | cons x names ih =>
    rw [requireNew_cons, contains_eq_isSome]
    by_cases hx : (t.lookup x).isSome
    · simp [hx]
    · simp [hx, ih]

theorem requireNew_modify_eq_error {e : Redefinition} :
    (requireNew label names >>= fun _ => modify change) t = .error e t' ↔
      (∃ x ∈ names, (t.lookup x).isSome) ∧ e = ⟨label⟩ ∧ t' = t := by
  rw [requireNew_modify]
  by_cases h : ∃ x ∈ names, (t.lookup x).isSome
  · rw [if_pos h, EStateM.Result.error.injEq, @eq_comm _ _ e, @eq_comm _ t]
    exact (and_iff_right h).symm
  · rw [if_neg h]
    exact ⟨nofun, fun he => absurd he.1 h⟩

theorem requireNew_modify_eq_ok :
    (requireNew label names >>= fun _ => modify change) t = .ok () t' ↔
      (∀ x ∈ names, t.lookup x = none) ∧ t' = change t := by
  have hnew : (∀ x ∈ names, t.lookup x = none) ↔ ¬∃ x ∈ names, (t.lookup x).isSome := by simp
  rw [requireNew_modify, hnew]
  by_cases h : ∃ x ∈ names, (t.lookup x).isSome
  · rw [if_pos h]
    exact ⟨nofun, fun hok => absurd h hok.1⟩
  · rw [if_neg h, EStateM.Result.ok.injEq, @eq_comm _ _ t']
    simp [h]

end Guarded

section DefineSplit

variable {t t' : SymbolTable} {n : ByteString} {a : UInt32}

/-- A label cannot be defined if one of its names is, and then the table stays as it is. -/
theorem defineSplit_eq_error {e : Redefinition} :
    defineSplit n a t = .error e t' ↔
      (∃ x ∈ namesOf n, (t.lookup x).isSome) ∧ e = ⟨n⟩ ∧ t' = t :=
  requireNew_modify_eq_error

/-- A label can be defined if none of its names is, and then its symbols are what is new. -/
theorem defineSplit_eq_ok :
    defineSplit n a t = .ok () t' ↔ (∀ x ∈ namesOf n, t.lookup x = none) ∧
      ∀ x v, t'.lookup x = some v ↔ (x, v) ∈ (Definition.mk n a).symbols ∨ t.lookup x = some v := by
  have hlower : n ++ lowerEnding ≠ n := append_ending_ne n (by decide)
  have hupper : n ++ upperEnding ≠ n := append_ending_ne n (by decide)
  refine requireNew_modify_eq_ok.trans (and_congr_right fun hnew => ?_)
  simp only [List.forall_mem_cons] at hnew
  obtain ⟨hn, hu, hl, -⟩ := hnew
  rw [eq_iff_lookup]
  refine forall₂_congr fun x v => iff_congr Iff.rfl ?_
  -- each of the three names is still new when it is inserted
  have hl' : (t.insert (n ++ upperEnding) (a / 0x10000)).lookup (n ++ lowerEnding) = none := by
    rw [lookup_insert, if_neg (append_upperEnding_ne n n), hl]
  have hn' : ((t.insert (n ++ upperEnding) (a / 0x10000)).insert (n ++ lowerEnding)
      (a % 0x10000)).lookup n = none := by
    rw [lookup_insert, if_neg hlower, lookup_insert, if_neg hupper, hn]
  refine (lookup_insert_eq_some hn' a x v).trans ?_
  rw [lookup_insert_eq_some hl', lookup_insert_eq_some hu]
  simp only [Definition.symbols, List.mem_cons, List.not_mem_nil, or_false]
  tauto

end DefineSplit

/-- The table holds what the definitions bring, and no name comes with two of them. -/
structure Records (t : SymbolTable) (ds : List Definition) : Prop where
  apart : (ds.map (·.name)).Pairwise NamesApart
  lookup_iff : ∀ x v, t.lookup x = some v ↔ ∃ d ∈ ds, (x, v) ∈ d.symbols

theorem records_empty : Records {} [] where
  apart := .nil
  lookup_iff := by simp [lookup]

namespace Records

variable {t t' : SymbolTable} {ds ds' : List Definition} {n : ByteString} {a : UInt32}

/-- The names of a table are those that come with its labels. -/
theorem isSome_lookup (h : Records t ds) (x : ByteString) :
    (t.lookup x).isSome ↔ ∃ d ∈ ds, x ∈ namesOf d.name := by
  simp only [Option.isSome_iff_exists, h.lookup_iff, ← Definition.exists_mem_symbols]
  exact ⟨fun ⟨v, d, hd, hv⟩ => ⟨d, hd, v, hv⟩, fun ⟨d, hd, v, hv⟩ => ⟨v, d, hd, hv⟩⟩

theorem lookup_eq_none (h : Records t ds) (x : ByteString) :
    t.lookup x = none ↔ ∀ d ∈ ds, x ∉ namesOf d.name := by
  rw [← Option.not_isSome_iff_eq_none, h.isSome_lookup]
  simp

theorem perm (h : Records t ds) (hp : ds.Perm ds') : Records t ds' where
  apart := (hp.map _).pairwise h.apart fun h => h.symm
  lookup_iff x v := by simp only [h.lookup_iff, hp.mem_iff]

/-- A table is known by what it records, in any order. -/
theorem unique (h : Records t ds) (h' : Records t' ds) : t = t' :=
  eq_iff_lookup.2 fun x v => (h.lookup_iff x v).trans (h'.lookup_iff x v).symm

theorem apart_concat_iff :
    ((ds ++ [Definition.mk n a]).map (·.name)).Pairwise NamesApart ↔
      (ds.map (·.name)).Pairwise NamesApart ∧ ∀ d ∈ ds, NamesApart d.name n := by
  simp [List.pairwise_append]

theorem lookup_names_eq_none (h : Records t ds) :
    (∀ x ∈ namesOf n, t.lookup x = none) ↔ ∀ d ∈ ds, NamesApart d.name n := by
  simp only [h.lookup_eq_none]
  exact ⟨fun hx d hd x hxd hxn => hx x hxn d hd hxd, fun hd x hxn d hds hxd => hd d hds x hxd hxn⟩

/-- A further label can be defined exactly if it can be recorded with the others. -/
theorem defineSplit_eq_ok (h : Records t ds) :
    defineSplit n a t = .ok () t' ↔ Records t' (ds ++ [⟨n, a⟩]) := by
  have hsymbols : ∀ x v, (∃ d ∈ ds ++ [⟨n, a⟩], (x, v) ∈ d.symbols) ↔
      (x, v) ∈ (Definition.mk n a).symbols ∨ t.lookup x = some v := by
    intro x v
    rw [h.lookup_iff, or_comm]
    simp [or_and_right, exists_or]
  rw [SymbolTable.defineSplit_eq_ok, h.lookup_names_eq_none]
  constructor
  · rintro ⟨hapart, hlookup⟩
    exact ⟨apart_concat_iff.2 ⟨h.apart, hapart⟩, fun x v => by rw [hlookup, hsymbols]⟩
  · rintro ⟨hapart, hlookup⟩
    exact ⟨(apart_concat_iff.1 hapart).2, fun x v => by rw [hlookup, hsymbols]⟩

/-- A label that cannot be defined has a name in common with one that is. -/
theorem defineSplit_eq_error (h : Records t ds) {e : Redefinition} :
    defineSplit n a t = .error e t' ↔
      (∃ d ∈ ds, ¬NamesApart d.name n) ∧ e = ⟨n⟩ ∧ t' = t := by
  have hnot : (∃ x ∈ namesOf n, (t.lookup x).isSome) ↔ ∃ d ∈ ds, ¬NamesApart d.name n := by
    rw [← not_iff_not]
    simpa using h.lookup_names_eq_none
  rw [SymbolTable.defineSplit_eq_error, hnot]

end Records

end SymbolTable

/-! ## The steps of a category -/

/-- The definition that a step makes, if it makes one. -/
def LabelAction.definition? : LabelAction → Option Definition
  | define name address _ => some ⟨name, address⟩
  | fail _ => none

/-- The definitions among some steps. -/
def definitions (actions : List LabelAction) : List Definition :=
  actions.filterMap LabelAction.definition?

theorem definitions_append (as bs : List LabelAction) :
    definitions (as ++ bs) = definitions as ++ definitions bs := List.filterMap_append

namespace LabelAction

variable {t t' : SymbolTable} {n : ByteString} {a : UInt32} {line : Int} {e : AssemblyError}

theorem perform_define_eq_ok :
    (define n a line).perform t = .ok () t' ↔ SymbolTable.defineSplit n a t = .ok () t' := by
  change EStateM.adaptExcept _ _ t = _ ↔ _
  rw [EStateM.adaptExcept]
  cases SymbolTable.defineSplit n a t <;> simp

theorem perform_define_eq_error :
    (define n a line).perform t = .error e t' ↔ ∃ r,
      SymbolTable.defineSplit n a t = .error r t' ∧ e = .entry line (.redefinition r) := by
  change EStateM.adaptExcept _ _ t = _ ↔ _
  rw [EStateM.adaptExcept]
  cases SymbolTable.defineSplit n a t <;> simp [eq_comm, and_comm]

theorem apply_eq_ok {action : LabelAction} :
    action.apply t = .ok t' ↔ action.perform t = .ok () t' := by
  rw [apply]
  cases action.perform t <;> simp

theorem apply_eq_error {action : LabelAction} :
    action.apply t = .error e ↔ ∃ t', action.perform t = .error e t' := by
  rw [apply]
  cases action.perform t <;> simp

end LabelAction

/-- All steps succeed exactly if none of them is a failure and what they define can be recorded. -/
theorem SymbolTable.Records.foldlM_apply {t t' : SymbolTable} {ds : List Definition}
    (h : Records t ds) {actions : List LabelAction} :
    actions.foldlM LabelAction.apply t = .ok t' ↔
      (∀ e, .fail e ∉ actions) ∧ Records t' (ds ++ definitions actions) := by
  induction actions generalizing t ds with
  | nil =>
    rw [List.foldlM_nil, pure_eq_ok]
    simp only [definitions, List.filterMap_nil, List.append_nil, List.not_mem_nil, not_false_iff,
      implies_true, true_and]
    exact ⟨fun ht => ht ▸ h, h.unique⟩
  | cons action actions ih =>
    rw [List.foldlM_cons, bind_eq_ok]
    cases action with
    | fail e =>
      constructor
      · rintro ⟨t₁, ht₁, -⟩
        cases ht₁
      · rintro ⟨hfail, -⟩
        exact absurd (List.mem_cons_self ..) (hfail e)
    | define n a line =>
      have hcons : ds ++ definitions (.define n a line :: actions) =
          (ds ++ [⟨n, a⟩]) ++ definitions actions := by simp [definitions, LabelAction.definition?]
      have hfail : (∀ e, LabelAction.fail e ∉ LabelAction.define n a line :: actions) ↔
          ∀ e, .fail e ∉ actions := by simp
      rw [hcons, hfail]
      simp only [LabelAction.apply_eq_ok, LabelAction.perform_define_eq_ok]
      constructor
      · rintro ⟨t₁, hn, hrest⟩
        exact (ih (h.defineSplit_eq_ok.1 hn)).1 hrest
      · rintro ⟨hnone, hrec⟩
        -- the label is apart from those before it, because all of them are from one another
        have hapart := hrec.apart
        rw [List.map_append, List.pairwise_append] at hapart
        cases hn : defineSplit n a t with
        | ok _ t₁ => exact ⟨t₁, rfl, (ih (h.defineSplit_eq_ok.1 hn)).2 ⟨hnone, hrec⟩⟩
        | error e t₁ =>
          obtain ⟨⟨d, hd, hnot⟩, -⟩ := h.defineSplit_eq_error.1 hn
          exact absurd ((SymbolTable.Records.apart_concat_iff.1 hapart.1).2 d hd) hnot

end MipsAssembler
