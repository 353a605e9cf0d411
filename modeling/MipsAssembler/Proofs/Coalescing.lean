import MipsAssembler.Proofs.Editing

/-!
# Joining free neighbours

A list of extents is normal if no two of its neighbours are free. `coalesce` makes a list normal: a
run of free extents becomes a single one, with the bounds of the run, and extents that are in use
stay as they are. It is possible unless there is a hole between two free neighbours of the list
(`exists_coalesce`). Whether there is one does not depend on what was joined before, because an extent
that is joined ends where its last part did (`isChain_joined`).

`coalesce_normalises` says all this of any list, and that joining changes no status where the list
tiles a window.
-/

namespace MipsAssembler

open Outcome

namespace Tiling

/-! ## One step -/

/-- If both extents are free, the second begins where the first ends. -/
def Joinable (e next : Extent) : Prop :=
  e.status = .free → next.status = .free → e.upper.toNat + 1 = next.lower.toNat

/-- The extent from the start of one to the end of another. -/
def joined (e next : Extent) : Extent := { e with upper := next.upper }

/-- What the first two extents of a list lead to: they are joined, there is a hole between them, or
the first stays as it is. -/
theorem coalesceFrom_cons (e next : Extent) (rest : List Extent) :
    coalesceFrom e (next :: rest) =
      if e.status = .free ∧ next.status = .free then
        if e.upper.toNat + 1 = next.lower.toNat then coalesceFrom (joined e next) rest
        else .error (.mergeHole e next)
      else (coalesceFrom next rest).map (e :: ·) := by
  rw [coalesceFrom]
  by_cases hfree : e.status = .free ∧ next.status = .free
  · have hisFree : e.isFree = true ∧ next.isFree = true := by simpa [Extent.isFree] using hfree
    by_cases hnext : e.upper.toNat + 1 = next.lower.toNat <;>
      simp [hfree, hisFree, hnext, Extent.merge, joined]
  · have hisFree : (e.isFree && next.isFree) = false := by simpa [Extent.isFree] using hfree
    simp [hfree, hisFree]

section Run

variable {e next : Extent} {rest es' : List Extent}

/-- What follows a free extent sees no difference if that is joined with a free one before it. -/
theorem isChain_joined (hfree : e.status = .free ∧ next.status = .free) :
    (joined e next :: rest).IsChain Joinable ↔ (next :: rest).IsChain Joinable := by
  cases rest with
  | nil => simp
  | cons f rest => simp [List.isChain_cons_cons, Joinable, joined, hfree]

/-! ## All steps -/

/-- A list can be joined exactly if no two free neighbours have a hole between them. -/
theorem exists_coalesceFrom :
    (∃ es', coalesceFrom e rest = .ok es') ↔ (e :: rest).IsChain Joinable := by
  induction rest generalizing e with
  | nil => simp [coalesceFrom]
  | cons next rest ih =>
    rw [coalesceFrom_cons, List.isChain_cons_cons]
    split_ifs with hfree hnext
    · have hjoin : Joinable e next := fun _ _ => hnext
      rw [ih, isChain_joined hfree, and_iff_right hjoin]
    · simp [Joinable, hfree, hnext]
    · have hjoin : Joinable e next := fun h h' => absurd ⟨h, h'⟩ hfree
      rw [and_iff_right hjoin, ← ih]
      simp [map_eq_ok]

/-- The only thing that can go wrong is a hole. -/
theorem kind_of_coalesceFrom {err : PlacementError} (h : coalesceFrom e rest = .error err) :
    err.kind = .invariant := by
  induction rest generalizing e with
  | nil => cases h
  | cons next rest ih =>
    rw [coalesceFrom_cons] at h
    split_ifs at h
    · exact ih h
    · obtain rfl := Except.error.inj h
      rfl
    · exact ih (map_eq_error.1 h)

/-- The list begins with an extent of the same status, and it is normal. -/
theorem coalesceFrom_normal (h : coalesceFrom e rest = .ok es') :
    es'.head?.map (·.status) = some e.status ∧ es'.IsChain NotBothFree := by
  induction rest generalizing e es' with
  | nil =>
    obtain rfl := Except.ok.inj h
    exact ⟨rfl, List.isChain_singleton e⟩
  | cons next rest ih =>
    rw [coalesceFrom_cons] at h
    split_ifs at h with hfree
    · obtain ⟨hhead, hnormal⟩ := ih h
      exact ⟨hhead, hnormal⟩
    · obtain ⟨es, hes, rfl⟩ := map_eq_ok.1 h
      obtain ⟨hhead, hnormal⟩ := ih hes
      refine ⟨rfl, List.isChain_cons.2 ⟨fun f hf => ?_, hnormal⟩⟩
      rw [Option.mem_def.1 hf, Option.map_some, Option.some.injEq] at hhead
      rwa [NotBothFree, hhead]

/-- Extents that are in use stay as they are. -/
theorem coalesceFrom_used (h : coalesceFrom e rest = .ok es') :
    es'.filter (!·.isFree) = (e :: rest).filter (!·.isFree) := by
  induction rest generalizing e es' with
  | nil => rw [Except.ok.inj h]
  | cons next rest ih =>
    rw [coalesceFrom_cons] at h
    split_ifs at h with hfree
    · rw [ih h]
      simp [Extent.isFree, joined, hfree]
    · obtain ⟨es, hes, rfl⟩ := map_eq_ok.1 h
      rw [List.filter_cons, List.filter_cons, ih hes]

/-- A normal list is left alone. -/
theorem coalesceFrom_of_normal (h : (e :: rest).IsChain NotBothFree) :
    coalesceFrom e rest = .ok (e :: rest) := by
  induction rest generalizing e with
  | nil => rfl
  | cons next rest ih =>
    rw [List.isChain_cons_cons] at h
    rw [coalesceFrom_cons, if_neg h.1, ih h.2]
    rfl

end Run

/-! ## Lists -/

section Lists

variable {es es' : List Extent}

theorem exists_coalesce : (∃ es', coalesce es = .ok es') ↔ es.IsChain Joinable := by
  cases es with
  | nil => simp [coalesce]
  | cons e rest => exact exists_coalesceFrom

theorem coalesce_normal (h : coalesce es = .ok es') : es'.IsChain NotBothFree := by
  cases es with
  | nil =>
    obtain rfl := Except.ok.inj h
    exact .nil
  | cons e rest => exact (coalesceFrom_normal h).2

theorem coalesce_used (h : coalesce es = .ok es') :
    es'.filter (!·.isFree) = es.filter (!·.isFree) := by
  cases es with
  | nil => rw [Except.ok.inj h]
  | cons e rest => exact coalesceFrom_used h

theorem coalesce_of_normal (h : es.IsChain NotBothFree) : coalesce es = .ok es := by
  cases es with
  | nil => rfl
  | cons e rest => exact coalesceFrom_of_normal h

theorem kind_of_coalesce {err : PlacementError} (h : coalesce es = .error err) :
    err.kind = .invariant := by
  cases es with
  | nil => cases h
  | cons e rest => exact kind_of_coalesceFrom h

/-- Between the extents of a tiling there are no holes. -/
theorem IsTiling.joinable {low high : UInt32} (h : IsTiling es low high) : es.IsChain Joinable :=
  h.contiguous.imp fun _ _ hnext _ _ => hnext

end Lists

/-- **Joining free neighbours makes a list normal and changes no memory.** If it is possible, no two
neighbours of the result are free, the extents in use are those of the list in their order, joining
again changes nothing, and where the list tiles a window every address has the status that it had.
It is possible for every list that tiles a window, and fails exactly if two free neighbours of the
list have a hole between them. -/
theorem coalesce_normalises (es : List Extent) :
    (∀ es', coalesce es = .ok es' →
      es'.IsChain NotBothFree ∧
      es'.filter (!·.isFree) = es.filter (!·.isFree) ∧
      (∀ low high, check es low high = .ok () → ∀ a, statusAt? es' a = statusAt? es a) ∧
      coalesce es' = .ok es') ∧
    (∀ low high, check es low high = .ok () → ∃ es', coalesce es = .ok es') ∧
    (∀ err, coalesce es = .error err → err.kind = .invariant) ∧
    ((∃ err, coalesce es = .error err) ↔
      ∃ before e next after, es = before ++ e :: next :: after ∧ e.status = .free ∧
        next.status = .free ∧ e.upper.toNat + 1 ≠ next.lower.toNat) := by
  refine ⟨fun es' h => ⟨coalesce_normal h, coalesce_used h, fun low high hcheck a => ?_, ?_⟩,
    fun low high hcheck => ?_, fun err => kind_of_coalesce, ?_⟩
  · obtain ⟨-, hcovers⟩ := isTiling_iff.1 (check_eq_ok.1 hcheck)
    exact (coalesce_recoats hcovers h).status a
  · exact coalesce_of_normal (coalesce_normal h)
  · exact exists_coalesce.2 (check_eq_ok.1 hcheck).joinable
  · have hfails : (∃ err, coalesce es = .error err) ↔ ¬∃ es', coalesce es = .ok es' := by
      cases coalesce es <;> simp
    rw [hfails, exists_coalesce, List.isChain_iff_forall_rel_of_append_cons_cons]
    simp only [Joinable, not_forall, exists_prop, ne_eq]
    constructor
    · rintro ⟨e, next, before, after, h⟩
      exact ⟨before, e, next, after, h⟩
    · rintro ⟨before, e, next, after, h⟩
      exact ⟨e, next, before, after, h⟩

/-- A tiling of the whole address space with runs of two and of three free extents. -/
def fragmentedSpace : List Extent :=
  [⟨0, 0, .free, none⟩, ⟨1, 0xF, .free, some 3⟩, ⟨0x10, 0x1F, .allocated, some 0⟩,
   ⟨0x20, 0x2F, .free, some 1⟩, ⟨0x30, 0x30, .free, none⟩, ⟨0x31, 0xFFFFFFFE, .free, none⟩,
   ⟨0xFFFFFFFF, 0xFFFFFFFF, .reserved 2, none⟩]

/-- Each run becomes one extent with the owner of its first part. Two free extents with a hole between
them cannot be joined, also after one that could. -/
theorem coalesce_normalises_fragmented :
    (∃ es', check fragmentedSpace 0 0xFFFFFFFF = .ok () ∧ coalesce fragmentedSpace = .ok es' ∧
      es' = [⟨0, 0xF, .free, none⟩, ⟨0x10, 0x1F, .allocated, some 0⟩,
        ⟨0x20, 0xFFFFFFFE, .free, some 1⟩, ⟨0xFFFFFFFF, 0xFFFFFFFF, .reserved 2, none⟩] ∧
      (∀ a, statusAt? es' a = statusAt? fragmentedSpace a) ∧ coalesce es' = .ok es') ∧
    ∃ err, coalesce [⟨0, 0, .free, none⟩, ⟨1, 2, .free, none⟩, ⟨4, 5, .free, none⟩] = .error err ∧
      err.kind = .invariant := by
  have hcheck : check fragmentedSpace 0 0xFFFFFFFF = .ok () := rfl
  obtain ⟨hresult, hpossible, -⟩ := coalesce_normalises fragmentedSpace
  obtain ⟨es', hes'⟩ := hpossible 0 0xFFFFFFFF hcheck
  obtain ⟨-, -, hstatus, hagain⟩ := hresult es' hes'
  obtain ⟨-, -, hkind, hfails⟩ :=
    coalesce_normalises [⟨0, 0, .free, none⟩, ⟨1, 2, .free, none⟩, ⟨4, 5, .free, none⟩]
  obtain ⟨err, herr⟩ := hfails.2 ⟨[⟨0, 0, .free, none⟩], _, _, [], rfl, rfl, rfl, by decide⟩
  refine ⟨⟨es', hcheck, hes', ?_, hstatus 0 0xFFFFFFFF hcheck, hagain⟩, err, herr, hkind err herr⟩
  exact (Except.ok.inj hes').symm

end Tiling

end MipsAssembler
