import MipsAssembler.Proofs.LabelMap

/-!
# Histories of a symbol table

A symbol table is filled by calls that define a single name, or a label with the halves of its
address. Names are arbitrary here: one of them may itself end like a half, and so be in the way of
another label.

* A call asks for some names (`SymbolCall.symbols`). It succeeds exactly if none of them is defined,
  and then it adds these and nothing else (`perform_eq_ok`, `names_of_perform`); otherwise it fails
  (`perform_eq_error`).
* Hence no call changes what is defined (`lookup_next`), and no history does (`lookup_run`).
* `replay_single_assignment` puts this together for the table after any history.
-/

namespace MipsAssembler

open ByteString Outcome

/-! ## The names of a table -/

/-- The order in which a table keeps its names is that of their bytes. -/
theorem compare_eq_lt_iff (a b : ByteString) : compare a b = .lt ↔ a < b := by
  induction a generalizing b with
  | nil => cases b <;> simp [List.compare_nil_cons]
  | cons x a ih =>
    cases b with
    | nil => simp [List.compare_cons_nil]
    | cons y b =>
      rw [List.compare_cons_cons, List.cons_lt_cons_iff, ← ih, Ordering.then_eq_lt,
        Std.compare_eq_lt, Std.LawfulEqCmp.compare_eq_iff_eq]

namespace SymbolTable

theorem mem_names {t : SymbolTable} {n : ByteString} : n ∈ t.names ↔ (t.lookup n).isSome := by
  rw [names, Std.ExtTreeMap.mem_keys, ← contains_eq_isSome]
  rfl

theorem pairwise_names (t : SymbolTable) : t.names.Pairwise (· < ·) :=
  Std.ExtTreeMap.ordered_keys.imp fun h => (compare_eq_lt_iff _ _).1 h

theorem nodup_names (t : SymbolTable) : t.names.Nodup := Std.ExtTreeMap.nodup_keys

theorem length_names (t : SymbolTable) : t.names.length = t.size := Std.ExtTreeMap.length_keys

/-- A single name cannot be defined if it is, and then the table stays as it is. -/
theorem define_eq_error {t t' : SymbolTable} {n : ByteString} {a : UInt32} {e : Redefinition} :
    define n a t = .error e t' ↔ (∃ x ∈ [n], (t.lookup x).isSome) ∧ e = ⟨n⟩ ∧ t' = t :=
  requireNew_modify_eq_error

/-- A single name can be defined if it is not, and then it is what is new. -/
theorem define_eq_ok {t t' : SymbolTable} {n : ByteString} {a : UInt32} :
    define n a t = .ok () t' ↔ (∀ x ∈ [n], t.lookup x = none) ∧
      ∀ x v, t'.lookup x = some v ↔ (x, v) ∈ [(n, a)] ∨ t.lookup x = some v := by
  refine requireNew_modify_eq_ok.trans (and_congr_right fun hnew => ?_)
  rw [eq_iff_lookup]
  refine forall₂_congr fun x v => iff_congr Iff.rfl ?_
  rw [lookup_insert_eq_some (hnew n (List.mem_singleton_self n)), List.mem_singleton]

end SymbolTable

theorem nodup_namesOf (n : ByteString) : (namesOf n).Nodup := by
  have hupper : n ++ upperEnding ≠ n := append_ending_ne n (by decide)
  have hlower : n ++ lowerEnding ≠ n := append_ending_ne n (by decide)
  have hends : n ++ upperEnding ≠ n ++ lowerEnding := append_upperEnding_ne n n
  simp only [namesOf, List.nodup_cons, List.mem_cons, List.not_mem_nil, or_false, not_or]
  exact ⟨⟨hupper.symm, hlower.symm⟩, hends, not_false, .nil⟩

/-! ## Calls -/

/-- A call that defines names in a symbol table. -/
inductive SymbolCall where
  | define (name : ByteString) (address : UInt32)
  /-- Defines a label and the halves of its address. -/
  | defineSplit (name : ByteString) (address : UInt32)
  deriving DecidableEq, Repr

namespace SymbolCall

/-- Makes a call. -/
def perform : SymbolCall → EStateM Redefinition SymbolTable Unit
  | define name address => SymbolTable.define name address
  | defineSplit name address => SymbolTable.defineSplit name address

/-- The table that a call leaves, whether it succeeds or not. -/
def next (t : SymbolTable) (c : SymbolCall) : SymbolTable := endState (c.perform t)

/-- A table after some calls. -/
def run (t : SymbolTable) (calls : List SymbolCall) : SymbolTable := calls.foldl next t

/-- A fresh table after some calls. -/
def replay (calls : List SymbolCall) : SymbolTable := run {} calls

/-- The name that a call is about. -/
def name : SymbolCall → ByteString
  | define name _ | defineSplit name _ => name

/-- The names that a call asks for, with their values. -/
def symbols : SymbolCall → List (ByteString × UInt32)
  | define name address => [(name, address)]
  | defineSplit name address => (Definition.mk name address).symbols

section Steps

variable {t t' : SymbolTable} {c : SymbolCall}

theorem nodup_symbols (c : SymbolCall) : (c.symbols.map Prod.fst).Nodup := by
  cases c with
  | define n a => exact List.pairwise_singleton ..
  | defineSplit n a => exact nodup_namesOf n

/-- A call fails exactly if one of the names that it asks for is defined, and then it changes
nothing. -/
theorem perform_eq_error {e : Redefinition} :
    c.perform t = .error e t' ↔
      (∃ x ∈ c.symbols.map Prod.fst, (t.lookup x).isSome) ∧ e = ⟨c.name⟩ ∧ t' = t := by
  cases c with
  | define n a => exact SymbolTable.define_eq_error
  | defineSplit n a => exact SymbolTable.defineSplit_eq_error

/-- A call succeeds exactly if none of the names that it asks for is defined, and what it asks for is
what is new. -/
theorem perform_eq_ok :
    c.perform t = .ok () t' ↔ (∀ x ∈ c.symbols.map Prod.fst, t.lookup x = none) ∧
      ∀ x v, t'.lookup x = some v ↔ (x, v) ∈ c.symbols ∨ t.lookup x = some v := by
  cases c with
  | define n a => exact SymbolTable.define_eq_ok
  | defineSplit n a => exact SymbolTable.defineSplit_eq_ok

/-- The names of a table after a call that succeeds. -/
theorem names_of_perform (h : c.perform t = .ok () t') :
    t'.names.Perm (c.symbols.map Prod.fst ++ t.names) := by
  obtain ⟨hnew, hlookup⟩ := perform_eq_ok.1 h
  have hapart : ∀ x ∈ c.symbols.map Prod.fst, ∀ y ∈ t.names, x ≠ y := by
    rintro x hx y hy rfl
    rw [SymbolTable.mem_names, hnew x hx] at hy
    cases hy
  refine (List.perm_ext_iff_of_nodup t'.nodup_names
    (List.nodup_append.2 ⟨c.nodup_symbols, t.nodup_names, hapart⟩)).2 fun x => ?_
  simp only [SymbolTable.mem_names, List.mem_append, List.mem_map, Prod.exists,
    exists_eq_right, Option.isSome_iff_exists, hlookup, exists_or, exists_and_right]

theorem next_of_perform (h : c.perform t = .ok () t') : c.next t = t' := by rw [next, h, endState]

theorem next_of_error {e : Redefinition} (h : c.perform t = .error e t') : c.next t = t := by
  rw [next, h]
  exact (perform_eq_error.1 h).2.2

/-- **One call.** What is defined stays as it is, whatever is called. -/
theorem lookup_next {n : ByteString} {a : UInt32} (h : t.lookup n = some a) (c : SymbolCall) :
    (c.next t).lookup n = some a := by
  cases hc : c.perform t with
  | ok _ t' =>
    rw [next_of_perform hc]
    exact ((perform_eq_ok.1 hc).2 n a).2 (.inr h)
  | error e t' => rwa [next_of_error hc]

/-- **Any number of calls.** -/
theorem lookup_run {n : ByteString} {a : UInt32} (h : t.lookup n = some a)
    (calls : List SymbolCall) : (run t calls).lookup n = some a := by
  induction calls generalizing t with
  | nil => exact h
  | cons c calls ih => exact ih (lookup_next h c)

theorem replay_append (calls more : List SymbolCall) :
    replay (calls ++ more) = run (replay calls) more := List.foldl_append

end Steps

/-! ## Halves -/

/-- The table has a value for the name, and the values that it has for the two halves are numbers of
sixteen bits that make it up. -/
def Splits (t : SymbolTable) (n : ByteString) (a : UInt32) : Prop :=
  t.lookup n = some a ∧ ∃ upper lower, t.lookup (n ++ upperEnding) = some upper ∧
    t.lookup (n ++ lowerEnding) = some lower ∧ upper <<< 16 ||| lower = a ∧
    upper ≤ 0xFFFF ∧ lower ≤ 0xFFFF

/-- A label that is defined keeps its halves, whatever is called later. -/
theorem splits_run {t t' : SymbolTable} {n : ByteString} {a : UInt32}
    (h : SymbolTable.defineSplit n a t = .ok () t') (more : List SymbolCall) :
    Splits (run t' more) n a := by
  have hsymbol : ∀ s ∈ (Definition.mk n a).symbols, (run t' more).lookup s.1 = some s.2 :=
    fun s hs => lookup_run (((SymbolTable.defineSplit_eq_ok.1 h).2 s.1 s.2).2 (.inl hs)) more
  simp only [Definition.symbols, List.forall_mem_cons, div_eq_shiftRight, mod_eq_and] at hsymbol
  obtain ⟨hwhole, hupper, hlower, -⟩ := hsymbol
  exact ⟨hwhole, _, _, hupper, hlower, halves_join a, UInt32.le_iff_toNat_le.2 (upper_le a),
    UInt32.le_iff_toNat_le.2 (lower_le a)⟩

/-- **A symbol table is single-assignment, and its calls are all or nothing.** After any history, what
a name is defined as stays so in every longer one; a call that fails names its label and leaves the
table as it was. A label can be defined unless its name or that of one of its halves is; then there
are three names more, and in every longer history the halves, numbers of sixteen bits, make up the
address. The names of the table are those that are defined, in strictly ascending order of their
bytes. -/
theorem replay_single_assignment (calls : List SymbolCall) :
    (∀ more n a, (replay calls).lookup n = some a → (replay (calls ++ more)).lookup n = some a) ∧
    (∀ c e t, c.perform (replay calls) = .error e t →
      e = ⟨c.name⟩ ∧ t = replay calls ∧ replay (calls ++ [c]) = replay calls) ∧
    (∀ n a, (∃ e t, SymbolTable.defineSplit n a (replay calls) = .error e t) ↔
      ∃ x ∈ [n, n ++ upperEnding, n ++ lowerEnding], ((replay calls).lookup x).isSome) ∧
    (∀ n a t, SymbolTable.defineSplit n a (replay calls) = .ok () t →
      t = replay (calls ++ [.defineSplit n a]) ∧
      t.names.Perm ([n, n ++ upperEnding, n ++ lowerEnding] ++ (replay calls).names) ∧
      ∀ more, Splits (replay (calls ++ .defineSplit n a :: more)) n a) ∧
    (replay calls).names.Pairwise (· < ·) ∧
    (∀ x, x ∈ (replay calls).names ↔ ((replay calls).lookup x).isSome) ∧
    (replay calls).names.length = (replay calls).size := by
  refine ⟨fun more n a h => ?_, fun c e t h => ?_, fun n a => ?_, fun n a t h => ?_,
    SymbolTable.pairwise_names _, fun x => SymbolTable.mem_names, SymbolTable.length_names _⟩
  · rw [replay_append]
    exact lookup_run h more
  · obtain ⟨-, herror, hsame⟩ := perform_eq_error.1 h
    refine ⟨herror, hsame, ?_⟩
    rw [replay_append]
    exact next_of_error h
  · simp only [SymbolTable.defineSplit_eq_error, exists_and_left, exists_eq, and_true]
    rfl
  · have hnext : next (replay calls) (.defineSplit n a) = t := next_of_perform h
    refine ⟨?_, @names_of_perform _ _ (.defineSplit n a) h, fun more => ?_⟩
    · rw [replay_append]
      exact hnext.symm
    · rw [replay_append, run, List.foldl_cons, hnext]
      exact splits_run h more

/-- Calls with names that end like halves. The first is in the way of the second, and the third of the
fourth. -/
def collidingCalls : List SymbolCall :=
  [.define "x@hi" 7, .defineSplit "x" 0x0A000004, .defineSplit "x@lo" 0x12345678,
   .define "x@lo@hi" 1]

/-- The two calls that fail leave no trace. -/
theorem replay_single_assignment_colliding :
    (replay (collidingCalls.take 1)).lookup "x@hi" = some 7 ∧
      (replay collidingCalls).lookup "x@hi" = some 7 ∧
      (∃ e, SymbolTable.defineSplit "x" 0x0A000004 (replay (collidingCalls.take 1)) =
        .error e (replay (collidingCalls.take 1))) ∧
      replay (collidingCalls.take 2) = replay (collidingCalls.take 1) ∧
      (∃ t, SymbolTable.defineSplit "x@lo" 0x12345678 (replay (collidingCalls.take 2)) = .ok () t ∧
        Splits (replay collidingCalls) "x@lo" 0x12345678) ∧
      (replay collidingCalls).names = ["x@hi", "x@lo", "x@lo@hi", "x@lo@lo"] := by
  have hbound : (replay (collidingCalls.take 1)).lookup "x@hi" = some 7 := by decide +kernel
  have hnames : (replay collidingCalls).names = ["x@hi", "x@lo", "x@lo@hi", "x@lo@lo"] := by
    decide +kernel
  obtain ⟨hkept, hfailed, hblocked, -⟩ := replay_single_assignment (collidingCalls.take 1)
  obtain ⟨e, t, he⟩ := (hblocked "x" 0x0A000004).2 ⟨"x@hi", by decide +kernel, by decide +kernel⟩
  obtain ⟨-, rfl, hsame⟩ := hfailed (.defineSplit "x" 0x0A000004) e t he
  obtain ⟨-, -, hfree, hsplit, -⟩ := replay_single_assignment (collidingCalls.take 2)
  refine ⟨hbound, hkept (collidingCalls.drop 1) _ _ hbound, ⟨e, he⟩, hsame, ?_, hnames⟩
  cases ht : SymbolTable.defineSplit "x@lo" 0x12345678 (replay (collidingCalls.take 2)) with
  | ok _ t => exact ⟨t, rfl, (hsplit _ _ t ht).2.2 [.define "x@lo@hi" 1]⟩
  | error e t => exact absurd ((hfree "x@lo" 0x12345678).1 ⟨e, t, ht⟩) (by decide +kernel)

end SymbolCall

end MipsAssembler
