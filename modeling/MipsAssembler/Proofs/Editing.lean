import MipsAssembler.Proofs.FirstFit

/-!
# Editing a tiling

A list of extents that tiles a window can be edited with the operations on extents: one extent is
cut, grown at the cost of those that follow it, filled with a block or joined with its neighbour, or
all free neighbours are joined. Whatever the edits are and however many there are, the list goes on
tiling the window, and an address changes its status only where an edit says so
(`edits_keep_tiling`).

* What an edit changes is a `Coat`: the addresses that get a new status, and this status.
* `Recoats` says that a list can stand in the place of another up to some coats. One lemma for each
  operation shows it of what is edited (`shrink_recoats`, `grow_recoats`, `insert_recoats`,
  `merge_recoats`, `coalesce_recoats`); what comes before is not affected (`Recoats.append_left`),
  and edits can be put one after the other (`Recoats.trans`).
-/

namespace MipsAssembler

open Outcome

namespace Tiling

/-! ## The status of an address -/

/-- The status of an address: that of the first extent that holds it. -/
def statusAt? : List Extent → Nat → Option Status
  | [], _ => none
  | e :: rest, a =>
    if e.lower.toNat ≤ a ∧ a ≤ e.upper.toNat then some e.status else statusAt? rest a

theorem statusAt?_append (es fs : List Extent) (a : Nat) :
    statusAt? (es ++ fs) a = (statusAt? es a).or (statusAt? fs a) := by
  induction es with
  | nil => rfl
  | cons e es ih =>
    simp only [List.cons_append, statusAt?]
    split
    · rfl
    · exact ih

/-- Outside of what is covered no address has a status. -/
theorem Covers.statusAt?_eq_none {a b : Nat} {es : List Extent} (h : Covers a es b) {x : Nat}
    (hx : x < a ∨ b ≤ x) : statusAt? es x = none := by
  induction es generalizing a with
  | nil => rfl
  | cons e es ih =>
    obtain ⟨rfl, ho, h⟩ := h
    have hle := h.le
    rw [UInt32.le_iff_toNat_le] at ho
    rw [statusAt?, if_neg (by omega)]
    exact ih h (by omega)

/-- A stretch that is covered by free extents is free. -/
theorem Gap.statusAt?_eq {a b : Nat} {es : List Extent} (h : Gap a es b) (x : Nat) :
    statusAt? es x = if a ≤ x ∧ x < b then some .free else none := by
  match es, h with
  | [], h =>
    have hab : a = b := h.covers
    rw [if_neg (by omega)]
    rfl
  | [e], h =>
    obtain ⟨rfl, -, rfl⟩ := covers_singleton.1 h.covers
    rw [statusAt?, (h.unused e (by simp)).1, statusAt?]
    simp only [Nat.lt_succ_iff]
  | _ :: _ :: _, h => exact absurd h.short (by simp)

/-! ## Coats -/

/-- Addresses that follow one another, and the status that they get. -/
structure Coat where
  start : Nat
  size : Nat
  status : Status
  deriving DecidableEq, Repr

namespace Coat

/-- Is the address under the coat? -/
def Covers (c : Coat) (a : Nat) : Prop := c.start ≤ a ∧ a < c.start + c.size

instance (c : Coat) (a : Nat) : Decidable (c.Covers a) := inferInstanceAs (Decidable (_ ∧ _))

/-- The status of an address after some coats, the last on top. -/
def paint (coats : List Coat) (a : Nat) (status : Option Status) : Option Status :=
  coats.foldl (fun status c => if c.Covers a then some c.status else status) status

@[simp] theorem paint_nil (a : Nat) (status : Option Status) : paint [] a status = status := rfl

@[simp] theorem paint_singleton (c : Coat) (a : Nat) (status : Option Status) :
    paint [c] a status = if c.Covers a then some c.status else status := rfl

theorem paint_append (cs ds : List Coat) (a : Nat) (status : Option Status) :
    paint (cs ++ ds) a status = paint ds a (paint cs a status) := List.foldl_append ..

/-- Coats do not show where they are not. -/
theorem paint_of_not_covers {cs : List Coat} {a : Nat} (h : ∀ c ∈ cs, ¬c.Covers a)
    (status : Option Status) : paint cs a status = status := by
  induction cs generalizing status with
  | nil => rfl
  | cons c cs ih =>
    rw [List.forall_mem_cons] at h
    rw [paint, List.foldl_cons, if_neg h.1]
    exact ih h.2 status

end Coat

/-- The new list covers the addresses from `a` on and below `b` like the old one, and an address has
the status that it had but for the coats, all of which lie from `a` on. -/
structure Recoats (a : Nat) (coats : List Coat) (old new : List Extent) (b : Nat) : Prop where
  covers : Covers a new b
  above : ∀ c ∈ coats, a ≤ c.start
  status : ∀ x, statusAt? new x = Coat.paint coats x (statusAt? old x)

namespace Recoats

variable {a b c : Nat} {cs ds : List Coat} {old mid new pre : List Extent}

theorem refl (h : Covers a old b) : Recoats a [] old old b := ⟨h, by simp, fun _ => rfl⟩

theorem trans (h : Recoats a cs old mid b) (h' : Recoats a ds mid new b) :
    Recoats a (cs ++ ds) old new b where
  covers := h'.covers
  above d hd := (List.mem_append.1 hd).elim (h.above d) (h'.above d)
  status x := by rw [Coat.paint_append, ← h.status, h'.status]

/-- What comes before is not affected. -/
theorem append_left (hpre : Covers c pre a) (h : Recoats a cs old new b) :
    Recoats c cs (pre ++ old) (pre ++ new) b where
  covers := covers_append.2 ⟨a, hpre, h.covers⟩
  above d hd := hpre.le.trans (h.above d hd)
  status x := by
    rw [statusAt?_append, statusAt?_append, h.status]
    rcases Nat.lt_or_ge x a with hx | hx
    · have hfree : ∀ d ∈ cs, ¬d.Covers x := fun d hd hcov => by
        have := h.above d hd
        exact absurd hcov.1 (by omega)
      rw [Coat.paint_of_not_covers hfree, Coat.paint_of_not_covers hfree]
    · rw [hpre.statusAt?_eq_none (.inr hx), Option.none_or, Option.none_or]

end Recoats

/-! ## The operations -/

section Operations

variable {a b : Nat} {e : Extent} {post : List Extent} {n : UInt32}

theorem shrink_spec {head tail : Extent} (ho : e.lower ≤ e.upper)
    (h : e.shrink n = .ok (head, tail)) :
    head.lower = e.lower ∧ head.status = e.status ∧ tail.upper = e.upper ∧ tail.status = .free ∧
      e.lower.toNat ≤ head.upper.toNat ∧ head.upper.toNat + 1 = tail.lower.toNat ∧
      tail.lower.toNat + n.toNat = e.upper.toNat + 1 ∧ 0 < n.toNat := by
  have hsize := Placement.toNat_extentSize ho
  have hlt := e.upper.toNat_lt
  rw [Extent.shrink] at h
  split at h
  · cases h
  rename_i hn
  obtain ⟨rfl, rfl⟩ := Prod.mk.inj (Except.ok.inj h)
  rw [not_or, UInt64.le_iff_toNat_le, UInt32.toNat_toUInt64, Nat.not_le] at hn
  have hpos : 0 < n.toNat := Nat.pos_of_ne_zero fun h0 => hn.1 (UInt32.toNat_inj.1 h0)
  have hu : (e.upper - n).toNat = e.upper.toNat - n.toNat :=
    UInt32.toNat_sub_of_le _ _ (UInt32.le_iff_toNat_le.2 (by omega))
  have hl : (e.upper - n + 1).toNat = e.upper.toNat - n.toNat + 1 := by
    rw [UInt32.toNat_add, hu, show (1 : UInt32).toNat = 1 from rfl, Nat.mod_eq_of_lt (by omega)]
  refine ⟨rfl, rfl, rfl, rfl, ?_⟩
  simp only [hu, hl, true_and]
  omega

/-- What is split off becomes free. -/
theorem shrink_recoats {head tail : Extent} (hc : Covers a (e :: post) b)
    (h : e.shrink n = .ok (head, tail)) :
    Recoats a [⟨e.upper.toNat + 1 - n.toNat, n.toNat, .free⟩] (e :: post) (head :: tail :: post)
      b := by
  obtain ⟨rfl, ho, hpost⟩ := hc
  obtain ⟨hl, hs, hu, hfree, hhead, hcut, htail, hpos⟩ := shrink_spec ho h
  refine ⟨⟨congrArg _ hl, ?_, hcut.symm, ?_, hu ▸ hpost⟩, ?_, fun x => ?_⟩
  · rwa [hl, UInt32.le_iff_toNat_le]
  · rw [hu, UInt32.le_iff_toNat_le]
    omega
  · simp only [List.mem_singleton, forall_eq]
    omega
  · simp only [statusAt?, Coat.paint_singleton, Coat.Covers, hl, hs, hu, hfree]
    grind

theorem startAfter_of_lt {upper : UInt32} (hc : Covers a post b) (h : upper.toNat < a) :
    Extent.startAfter upper post = post := by
  cases post with
  | nil => rfl
  | cons next rest =>
    obtain ⟨rfl, -, -⟩ := hc
    rw [Extent.startAfter, if_neg (by rw [UInt32.le_iff_toNat_le]; omega)]

/-- What is left of the extents after one that grows: they begin after its new end, and beyond that
nothing changes. -/
theorem consume_spec {upper covered : UInt32} {rest : List Extent}
    (hc : Covers (covered.toNat + 1) post b) (hle : covered ≤ upper)
    (h : e.consume n upper covered post = .ok rest) :
    Covers (upper.toNat + 1) (Extent.startAfter upper rest) b ∧
      ∀ x, upper.toNat < x → statusAt? (Extent.startAfter upper rest) x = statusAt? post x := by
  induction post generalizing covered with
  | nil =>
    rw [Extent.consume] at h
    split at h <;> rename_i hend
    · cases h
    · obtain rfl := Except.ok.inj h
      obtain rfl := UInt32.le_antisymm hle (UInt32.not_lt.1 hend)
      exact ⟨hc, fun _ _ => rfl⟩
  | cons next post ih =>
    rw [Extent.consume] at h
    split at h <;> rename_i hend
    · obtain rfl := Except.ok.inj h
      obtain rfl := UInt32.le_antisymm hle hend
      rw [startAfter_of_lt hc (Nat.lt_succ_self _)]
      exact ⟨hc, fun _ _ => rfl⟩
    split at h
    · cases h
    split at h
    · cases h
    obtain ⟨hlower, ho, hpost⟩ := hc
    rw [UInt32.not_le, UInt32.lt_iff_toNat_lt] at hend
    rw [UInt32.le_iff_toNat_le] at ho
    split at h <;> rename_i hcut
    · -- the new end lies in the middle of the next extent, which loses its first part
      obtain rfl := Except.ok.inj h
      rw [UInt32.lt_iff_toNat_lt] at hcut
      have hnext : (upper + 1).toNat = upper.toNat + 1 := by
        have := next.upper.toNat_lt
        rw [UInt32.toNat_add, show (1 : UInt32).toNat = 1 from rfl, Nat.mod_eq_of_lt (by omega)]
      have hstart : next.lower ≤ upper := UInt32.le_iff_toNat_le.2 (by omega)
      rw [Extent.startAfter, if_pos hstart]
      refine ⟨⟨hnext, UInt32.le_iff_toNat_le.2 (hnext ▸ hcut), hpost⟩, fun x hx => ?_⟩
      simp only [statusAt?, hnext]
      grind
    · rw [UInt32.not_lt] at hcut
      obtain ⟨hcovers, hstatus⟩ := ih hpost hcut h
      refine ⟨hcovers, fun x hx => ?_⟩
      rw [UInt32.le_iff_toNat_le] at hcut
      rw [hstatus x hx, statusAt?, if_neg (by omega)]

/-- What is taken over gets the status of the extent that grows. -/
theorem grow_recoats {grown : Extent} {rest : List Extent} (hc : Covers a (e :: post) b)
    (h : e.grow post n = .ok () (grown, rest)) :
    Recoats a [⟨e.upper.toNat + 1, n.toNat, e.status⟩] (e :: post) (grown :: rest) b := by
  obtain ⟨rfl, ho, hpost⟩ := hc
  rw [UInt32.le_iff_toNat_le] at ho
  rw [Extent.grow] at h
  split at h <;> rename_i hzero
  · cases h
    subst hzero
    refine ⟨⟨rfl, UInt32.le_iff_toNat_le.2 ho, hpost⟩, ?_, fun x => ?_⟩
    · simp only [List.mem_singleton, forall_eq]
      omega
    · rw [Coat.paint_of_not_covers]
      simp [Coat.Covers]
  split at h <;> rename_i hwrap
  · cases h
  dsimp only at h
  split at h <;> rename_i left hleft <;> cases h
  have hupper : (e.upper + n).toNat = e.upper.toNat + n.toNat := by
    rw [UInt32.toNat_add, Nat.mod_eq_of_lt (by omega)]
  have hgrown : e.upper ≤ e.upper + n := UInt32.le_iff_toNat_le.2 (by omega)
  have hord : e.lower ≤ e.upper + n := UInt32.le_iff_toNat_le.2 (by omega)
  obtain ⟨hcovers, hstatus⟩ := consume_spec hpost hgrown hleft
  refine ⟨⟨rfl, hord, hcovers⟩, ?_, fun x => ?_⟩
  · simp only [List.mem_singleton, forall_eq]
    omega
  · have hbelow : x < e.upper.toNat + 1 → statusAt? post x = none :=
      fun hx => hpost.statusAt?_eq_none (.inl hx)
    simp only [statusAt?, Coat.paint_singleton, Coat.Covers, hupper]
    rcases Nat.lt_or_ge (e.upper.toNat + n.toNat) x with hx | hx
    · rw [hstatus x (by omega)]
      grind
    · rw [hcovers.statusAt?_eq_none (.inl (by omega))]
      grind

/-- What cannot grow is given back as it was. -/
theorem parts_of_grow_error {err : PlacementError} {parts : Extent × List Extent}
    (h : e.grow post n = .error err parts) : parts = (e, post) := by
  rw [Extent.grow] at h
  split at h
  · cases h
  split at h
  · cases h
    rfl
  · dsimp only at h
    split at h <;> cases h
    rfl

/-- The block brings its own status, and what is left on either side of it stays free. -/
theorem insert_recoats {block : Extent} {parts : List Extent} (hc : Covers a (e :: post) b)
    (h : e.insert block = .ok parts) :
    Recoats a [⟨block.lower.toNat, block.upper.toNat + 1 - block.lower.toNat, block.status⟩]
      (e :: post) (parts ++ post) b := by
  obtain ⟨rfl, ho, hpost⟩ := hc
  obtain ⟨hfree, hord, before, after, rfl, hbefore, hafter⟩ := Extent.insert_spec h
  have hlow := hbefore.covers.le
  have hhigh := hafter.covers.le
  rw [UInt32.le_iff_toNat_le] at ho
  refine ⟨?_, ?_, fun x => ?_⟩
  · rw [List.append_assoc]
    exact covers_append.2 ⟨_, hbefore.covers, rfl, hord, covers_append.2 ⟨_, hafter.covers, hpost⟩⟩
  · simpa using hlow
  · rw [UInt32.le_iff_toNat_le] at hord
    simp only [statusAt?_append, statusAt?, hbefore.statusAt?_eq, hafter.statusAt?_eq, hfree,
      Coat.paint_singleton, Coat.Covers]
    grind

/-- Joining two free extents changes no status. -/
theorem merge_recoats {next joined : Extent} (hc : Covers a (e :: next :: post) b)
    (h : e.merge next = .ok joined) : Recoats a [] (e :: next :: post) (joined :: post) b := by
  obtain ⟨rfl, ho, hnext, ho', hpost⟩ := hc
  rw [Extent.merge] at h
  split at h
  · cases h
  split at h <;> rename_i hfree
  · cases h
  obtain rfl := Except.ok.inj h
  simp only [Extent.isFree, Bool.or_eq_true, Bool.not_eq_true', decide_eq_false_iff_not, not_or,
    not_not] at hfree
  rw [UInt32.le_iff_toNat_le] at ho ho'
  have hord : e.lower ≤ next.upper := UInt32.le_iff_toNat_le.2 (by omega)
  refine ⟨⟨rfl, hord, hpost⟩, by simp, fun x => ?_⟩
  simp only [statusAt?, Coat.paint_nil, hfree]
  grind

theorem coalesceFrom_recoats {es : List Extent} (hc : Covers a (e :: post) b)
    (h : coalesceFrom e post = .ok es) : Recoats a [] (e :: post) es b := by
  induction post generalizing a e es with
  | nil =>
    obtain rfl := Except.ok.inj h
    exact .refl hc
  | cons next post ih =>
    rw [coalesceFrom] at h
    split at h
    · split at h
      · rename_i joined hmerge
        have hjoined := merge_recoats hc hmerge
        exact hjoined.trans (ih hjoined.covers h)
      · cases h
    · obtain ⟨rest, hrest, rfl⟩ := map_eq_ok.1 h
      obtain ⟨hl, ho, hnext⟩ := hc
      have hfirst : Covers a [e] (e.upper.toNat + 1) := covers_singleton.2 ⟨hl, ho, rfl⟩
      exact (ih hnext hrest).append_left hfirst

/-- Joining all free neighbours changes no status. -/
theorem coalesce_recoats {es es' : List Extent} (hc : Covers a es b) (h : coalesce es = .ok es') :
    Recoats a [] es es' b := by
  cases es with
  | nil =>
    obtain rfl := Except.ok.inj h
    exact .refl hc
  | cons e rest => exact coalesceFrom_recoats hc h

end Operations

/-! ## Edits -/

/-- A change to a list of extents, at the extent with a given number or to the whole list. -/
inductive Edit where
  /-- Puts the two parts of an extent in its place. -/
  | shrink (i : Nat) (n : UInt32)
  /-- Puts a grown extent, and what it leaves of those after it, in their place. -/
  | grow (i : Nat) (n : UInt32)
  /-- Puts a block, and what is left around it, in the place of an extent. -/
  | insert (i : Nat) (block : Extent)
  /-- Puts the join of an extent and the next one in their place. -/
  | merge (i : Nat)
  /-- Joins all free neighbours. -/
  | coalesce
  deriving DecidableEq, Repr

namespace Edit

/-- Keeps the first `i` extents and puts something else in the place of the rest. -/
def fromItem (es : List Extent) (i : Nat) (f : Extent → List Extent → Option (List Extent)) :
    Option (List Extent) :=
  match es.drop i with
  | [] => none
  | e :: after => (f e after).map (es.take i ++ ·)

/-- The list after an edit, if the edit is possible. -/
def result? (es : List Extent) : Edit → Option (List Extent)
  | shrink i n => fromItem es i fun e after =>
    (e.shrink n).toOption.map fun parts => parts.1 :: parts.2 :: after
  | grow i n => fromItem es i fun e after =>
    match e.grow after n with
    | .ok _ (grown, rest) => some (grown :: rest)
    | .error _ _ => none
  | insert i block => fromItem es i fun e after => (e.insert block).toOption.map (· ++ after)
  | merge i => fromItem es i fun e after => after.head?.bind fun next =>
    (e.merge next).toOption.map (· :: after.tail)
  | coalesce => (Tiling.coalesce es).toOption

/-- Which addresses get a new status from an edit: those that are split off, those that are taken
over, or those of the block. -/
def coat? (es : List Extent) : Edit → Option Coat
  | shrink i n => es[i]?.map fun e => ⟨e.upper.toNat + 1 - n.toNat, n.toNat, .free⟩
  | grow i n => es[i]?.map fun e => ⟨e.upper.toNat + 1, n.toNat, e.status⟩
  | insert _ block =>
    some ⟨block.lower.toNat, block.upper.toNat + 1 - block.lower.toNat, block.status⟩
  | merge _ | coalesce => none

theorem fromItem_eq_some {es es' : List Extent} {i : Nat}
    {f : Extent → List Extent → Option (List Extent)} (h : fromItem es i f = some es') :
    ∃ pre e after new, es = pre ++ e :: after ∧ es[i]? = some e ∧ f e after = some new ∧
      es' = pre ++ new := by
  rw [fromItem] at h
  split at h
  · cases h
  · rename_i e after hdrop
    obtain ⟨new, hnew, rfl⟩ := Option.map_eq_some_iff.1 h
    refine ⟨es.take i, e, after, new, ?_, ?_, hnew, rfl⟩
    · rw [← hdrop, List.take_append_drop]
    · rw [← List.head?_drop, hdrop, List.head?_cons]

/-- An edit that is possible recoats a covering. -/
theorem recoats_of_result? {a b : Nat} {es es' : List Extent} {edit : Edit} (hc : Covers a es b)
    (h : edit.result? es = some es') : Recoats a (edit.coat? es).toList es es' b := by
  cases edit with
  | shrink i n =>
    obtain ⟨pre, e, after, new, rfl, hget, hf, rfl⟩ := fromItem_eq_some h
    obtain ⟨⟨head, tail⟩, hparts, rfl⟩ := Option.map_eq_some_iff.1 hf
    obtain ⟨c, hpre, hold⟩ := covers_append.1 hc
    rw [coat?, hget]
    exact (shrink_recoats hold (eq_ok_of_toOption hparts)).append_left hpre
  | grow i n =>
    obtain ⟨pre, e, after, new, rfl, hget, hf, rfl⟩ := fromItem_eq_some h
    obtain ⟨c, hpre, hold⟩ := covers_append.1 hc
    split at hf <;> cases hf
    rename_i grown rest hgrow
    rw [coat?, hget]
    exact (grow_recoats hold hgrow).append_left hpre
  | insert i block =>
    obtain ⟨pre, e, after, new, rfl, -, hf, rfl⟩ := fromItem_eq_some h
    obtain ⟨parts, hparts, rfl⟩ := Option.map_eq_some_iff.1 hf
    obtain ⟨c, hpre, hold⟩ := covers_append.1 hc
    exact (insert_recoats hold (eq_ok_of_toOption hparts)).append_left hpre
  | merge i =>
    obtain ⟨pre, e, after, new, rfl, -, hf, rfl⟩ := fromItem_eq_some h
    obtain ⟨next, hnext, hf⟩ := Option.bind_eq_some_iff.1 hf
    obtain ⟨joined, hjoined, rfl⟩ := Option.map_eq_some_iff.1 hf
    obtain ⟨rest, rfl⟩ := List.head?_eq_some_iff.1 hnext
    obtain ⟨c, hpre, hold⟩ := covers_append.1 hc
    exact (merge_recoats hold (eq_ok_of_toOption hjoined)).append_left hpre
  | coalesce => exact coalesce_recoats hc (eq_ok_of_toOption h)

/-- The list after an edit. In the place of an extent that is to grow, and of those after it, goes what
is given back, whether it has grown or not; any other edit that is not possible gives nothing back, and
the list is kept. -/
def perform (es : List Extent) : Edit → List Extent
  | grow i n => (fromItem es i fun e after =>
      let parts := endState (e.grow after n)
      some (parts.1 :: parts.2)).getD es
  | edit => (edit.result? es).getD es

/-- An edit that is not possible leaves the list as it is. -/
theorem perform_eq (es : List Extent) (edit : Edit) : perform es edit = (edit.result? es).getD es := by
  cases edit with
  | grow i n =>
    rw [perform, result?, fromItem, fromItem]
    split
    · rfl
    · rename_i e after hdrop
      cases h : e.grow after n with
      | ok _ parts => rfl
      | error err parts =>
        obtain rfl := parts_of_grow_error h
        simpa [endState] using hdrop ▸ List.take_append_drop i es
  | shrink | insert | merge | coalesce => rfl

/-- The list after some edits. -/
def run (es : List Extent) (edits : List Edit) : List Extent := edits.foldl perform es

/-- What some edits change, in their order; those that are not possible change nothing. -/
def coatsOfRun : List Extent → List Edit → List Coat
  | _, [] => []
  | es, edit :: edits =>
    (if (edit.result? es).isSome then (edit.coat? es).toList else []) ++
      coatsOfRun (edit.perform es) edits

/-- What one edit does to a covering, possible or not. -/
theorem recoats_perform {a b : Nat} {es : List Extent} (hc : Covers a es b) (edit : Edit) :
    Recoats a (if (edit.result? es).isSome then (edit.coat? es).toList else []) es (perform es edit)
      b := by
  rw [perform_eq]
  cases h : edit.result? es with
  | none => exact .refl hc
  | some es' => exact recoats_of_result? hc h

/-- What a run of edits does to a covering. -/
theorem recoats_run {a b : Nat} {es : List Extent} (hc : Covers a es b) (edits : List Edit) :
    Recoats a (coatsOfRun es edits) es (run es edits) b := by
  induction edits generalizing es with
  | nil => exact .refl hc
  | cons edit edits ih =>
    have hstep := recoats_perform hc edit
    exact hstep.trans (ih hstep.covers)

end Edit

/-- A list that is recoated goes on tiling its window. -/
theorem IsTiling.of_recoats {low high : UInt32} {cs : List Coat} {es es' : List Extent}
    (h : IsTiling es low high) (hr : Recoats low.toNat cs es es' (high.toNat + 1)) :
    IsTiling es' low high :=
  isTiling_of_covers h.le hr.covers

/-- **Edits keep a tiling.** After any run of edits a list that passed the check passes it. If one
more edit is possible, the list after it passes as well; the addresses that it splits off, takes over
or fills have their new status, and every other address has the status that it had. So it is with the
whole run: an address that no edit of the run changes has the status that it had at first. -/
theorem edits_keep_tiling {es : List Extent} {low high : UInt32} (h : check es low high = .ok ())
    (edits : List Edit) :
    check (Edit.run es edits) low high = .ok () ∧
      (∀ edit es', Edit.result? (Edit.run es edits) edit = some es' →
        check es' low high = .ok () ∧
        (∀ a, (∀ c, edit.coat? (Edit.run es edits) = some c → ¬c.Covers a) →
          statusAt? es' a = statusAt? (Edit.run es edits) a) ∧
        ∀ a c, edit.coat? (Edit.run es edits) = some c → c.Covers a →
          statusAt? es' a = some c.status) ∧
      ∀ a, (∀ c ∈ Edit.coatsOfRun es edits, ¬c.Covers a) →
        statusAt? (Edit.run es edits) a = statusAt? es a := by
  have htiles := check_eq_ok.1 h
  have hrun := Edit.recoats_run (isTiling_iff.1 htiles).2 edits
  have htiles' := htiles.of_recoats hrun
  refine ⟨check_eq_ok.2 htiles', fun edit es' hedit => ?_, fun a ha => ?_⟩
  · have hstep := Edit.recoats_of_result? hrun.covers hedit
    refine ⟨check_eq_ok.2 (htiles'.of_recoats hstep), fun a ha => ?_, fun a c hcoat hc => ?_⟩
    · rw [hstep.status, Coat.paint_of_not_covers]
      simpa using ha
    · rw [hstep.status, hcoat, Option.toList_some, Coat.paint_singleton, if_pos hc]
  · rw [hrun.status, Coat.paint_of_not_covers ha]

/-- A tiling of the whole address space, with free extents next to one another. -/
def dividedSpace : List Extent :=
  [⟨0, 0xF, .free, none⟩, ⟨0x10, 0x1F, .allocated, some 0⟩, ⟨0x20, 0x2F, .free, none⟩,
   ⟨0x30, 0xFFFFFFFF, .free, some 7⟩]

/-- A block for the start of the address space, a growth over one free extent into the next, a join
that is not possible, and a cut at the end of the address space that is undone. -/
def mixedEdits : List Edit :=
  [.insert 0 ⟨0, 3, .reserved 9, none⟩, .grow 2 0x18, .merge 0, .shrink 3 1, .coalesce]

/-- The addresses after the growth and before the cut stay as they were. -/
theorem edits_keep_tiling_whole_space :
    check dividedSpace 0 0xFFFFFFFF = .ok () ∧
      Edit.run dividedSpace mixedEdits = [⟨0, 3, .reserved 9, none⟩, ⟨4, 0xF, .free, none⟩,
        ⟨0x10, 0x37, .allocated, some 0⟩, ⟨0x38, 0xFFFFFFFF, .free, some 7⟩] ∧
      check (Edit.run dividedSpace mixedEdits) 0 0xFFFFFFFF = .ok () ∧
      statusAt? (Edit.run dividedSpace mixedEdits) 0x38 = statusAt? dividedSpace 0x38 := by
  have h : check dividedSpace 0 0xFFFFFFFF = .ok () := rfl
  obtain ⟨hcheck, -, hkept⟩ := edits_keep_tiling h mixedEdits
  exact ⟨h, rfl, hcheck, hkept 0x38 (by decide)⟩

end Tiling

end MipsAssembler
