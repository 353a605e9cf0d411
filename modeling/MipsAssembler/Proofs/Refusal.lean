import MipsAssembler.Proofs.LowestAddress
import MipsAssembler.Proofs.Scheduling

/-!
# What the errors of placement say

A layout is refused because what it was asked for is malformed, or because there is no room. The error
says which: `PlacementError.Tells` is what each error means for the requests, and every error of a
layout means it (`layout_error`). The errors of the operations that a layout is made of are not among
them, since a block is put only into an extent that holds it, and the division of the window that
comes out passes the check.

A program makes no malformed requests, so that in windows that pass their own check only a lack of
room keeps it from being placed (`resolve_error_kind`), in whatever order its categories are settled
(`Jobs.failed_kind`).
-/

namespace MipsAssembler

open ByteString Outcome Tiling Placement

/-- The request makes no sense: it asks for no bytes, or its two bounds are in the wrong order or do
not fit its size. -/
def Request.Malformed (r : Request) : Prop :=
  r.size = 0 ∨ ∃ lower upper, r.lower = some lower ∧ r.upper = some upper ∧
    (upper < lower ∨ upper.toNat - lower.toNat + 1 ≠ r.size.toNat)

/-- Blocks for some requests leave the extents `free` of the window from `low` to `high`. -/
def Placement.LeaveFree (placed : List Request) (low high : UInt32) (free : List Extent) : Prop :=
  ∃ blocks es, List.Forall₂ Request.HonouredBy placed blocks ∧ Division low high blocks es ∧
    free = Tiling.free es

/-- What an error says of the requests for the window from `low` to `high`. Errors about single extents
say nothing of them. -/
def PlacementError.Tells (requests : List Request) (low high : UInt32) : PlacementError → Prop
  | invertedWindow l h => l = low ∧ h = high ∧ high < low
  | zeroSize r => r ∈ requests ∧ r.size = 0
  | inverted lower upper =>
    ∃ r ∈ requests, r.lower = some lower ∧ r.upper = some upper ∧ upper < lower
  | wrongSize r => r ∈ requests ∧ ∃ lower upper, r.lower = some lower ∧ r.upper = some upper ∧
      lower ≤ upper ∧ upper.toNat - lower.toNat + 1 ≠ r.size.toNat
  | pastEnd r => r ∈ requests ∧ r.upper = none ∧
      ∃ lower, r.lower = some lower ∧ 0xFFFFFFFF + 1 < lower.toNat + r.size.toNat
  | belowZero r => r ∈ requests ∧ r.lower = none ∧
      ∃ upper, r.upper = some upper ∧ upper.toNat + 1 < r.size.toNat
  | noRoomFor lower upper free => ∃ r placed, (r :: placed).Subperm requests ∧
      r.span = .ok (lower, upper) ∧ LeaveFree placed low high free ∧
      ∀ e ∈ free, e.contains lower upper = false
  | noRoom size free => ∃ r placed, (r :: placed).Subperm requests ∧
      r.isFloating = true ∧ r.size = size ∧ size ≠ 0 ∧ LeaveFree placed low high free ∧
      ∀ e ∈ free, ¬r.HasRoom e
  | _ => False

theorem PlacementError.Tells.kind {requests : List Request} {low high : UInt32} {e : PlacementError}
    (h : e.Tells requests low high) :
    e.kind = .noFit ∨ e.kind = .invariant ∧ (high < low ∨ ∃ r ∈ requests, r.Malformed) := by
  cases e with
  | noRoomFor | noRoom | pastEnd | belowZero => exact .inl rfl
  | invertedWindow => exact .inr ⟨rfl, .inl h.2.2⟩
  | zeroSize r => exact .inr ⟨rfl, .inr ⟨r, h.1, .inl h.2⟩⟩
  | inverted lower upper =>
    obtain ⟨r, hr, hlower, hupper, hlt⟩ := h
    exact .inr ⟨rfl, .inr ⟨r, hr, .inr ⟨lower, upper, hlower, hupper, .inl hlt⟩⟩⟩
  | wrongSize r =>
    obtain ⟨hr, lower, upper, hlower, hupper, -, hsize⟩ := h
    exact .inr ⟨rfl, .inr ⟨r, hr, .inr ⟨lower, upper, hlower, hupper, .inr hsize⟩⟩⟩
  | _ => exact h.elim

/-! ## One request -/

/-- A request with a bound that has no span says why. -/
theorem Request.span_error {requests : List Request} {low high : UInt32} {r : Request}
    {e : PlacementError} (hr : r ∈ requests) (hbound : r.isFloating = false)
    (h : r.span = .error e) : e.Tells requests low high := by
  unfold Request.span at h
  split at h
  · rename_i hsize
    obtain rfl := Except.error.inj h
    exact ⟨hr, hsize⟩
  rename_i hsize
  have hpos : 0 < r.size.toNat := Nat.pos_of_ne_zero fun h0 => hsize (UInt32.toNat_inj.1 h0)
  split at h
  · rename_i lower upper hlower hupper
    split at h
    · rename_i hlt
      obtain rfl := Except.error.inj h
      exact ⟨r, hr, hlower, hupper, hlt⟩
    split at h
    · rename_i hlt hne
      obtain rfl := Except.error.inj h
      exact ⟨hr, lower, upper, hlower, hupper, UInt32.not_lt.1 hlt, hne⟩
    · cases h
  · rename_i lower hlower hupper
    split at h
    · rename_i hend
      obtain rfl := Except.error.inj h
      exact ⟨hr, hupper, lower, hlower, by omega⟩
    · cases h
  · rename_i upper hlower hupper
    split at h
    · rename_i hend
      obtain rfl := Except.error.inj h
      have hpred : (r.size - 1).toNat = r.size.toNat - 1 :=
        UInt32.toNat_sub_of_le _ _ (UInt32.le_iff_toNat_le.2 hpos)
      rw [UInt32.lt_iff_toNat_lt, hpred] at hend
      exact ⟨hr, hlower, upper, hupper, by omega⟩
    · cases h
  · rename_i hlower hupper
    simp [Request.isFloating, hlower, hupper] at hbound

namespace Placement

variable {low high : UInt32} {requests : List Request} {e : PlacementError}

/-- Placing a request with a bound fails because it has no span, or because no free extent holds it. -/
theorem placeBound_error {es : List Extent} {r : Request} (h : placeBound es r = .error e) :
    r.span = .error e ∨ ∃ lower upper, r.span = .ok (lower, upper) ∧
      e = .noRoomFor lower upper (Tiling.free es) ∧
      ∀ f ∈ Tiling.free es, f.contains lower upper = false := by
  rcases bind_eq_error.1 h with hspan | ⟨⟨lower, upper⟩, hspan, h⟩
  · exact .inl hspan
  let choose (e : Extent) : Option Extent :=
    if e.isFree && e.contains lower upper then
      some { lower, upper, status := .allocated, owner := r.owner }
    else none
  by_cases hroom : ∃ f ∈ es, (choose f).isSome
  · -- a block that is chosen has its bounds in order and lies in its extent, so that it can be put in
    have hput : ∀ f ∈ es, ∀ block, choose f = some block → ∃ parts, f.insert block = .ok parts := by
      intro f _ block hf
      simp only [choose, Option.ite_none_right_eq_some, Bool.and_eq_true, Option.some.injEq] at hf
      obtain ⟨⟨hfree, hin⟩, rfl⟩ := hf
      exact exists_insert hfree (Request.le_of_span hspan) hin
    obtain ⟨es', hes'⟩ := exists_insertFirst hput hroom
    have hok : placeSpan es lower upper r.owner = .ok es' := bind_eq_ok.2 ⟨_, hes', rfl⟩
    cases h.symm.trans hok
  · have hnone : ∀ f ∈ es, choose f = none := by simpa using hroom
    have herror : placeSpan es lower upper r.owner =
        .error (.noRoomFor lower upper (Tiling.free es)) :=
      bind_eq_error.2 (.inr ⟨none, insertFirst_eq_none hnone, rfl⟩)
    refine .inr ⟨lower, upper, hspan, Except.error.inj (h.symm.trans herror), fun f hf => ?_⟩
    obtain ⟨hf, hfree⟩ := List.mem_filter.1 hf
    simpa [choose, hfree] using hnone f hf

/-- Placing a floating request fails because it asks for no bytes, or because no free extent has room. -/
theorem placeFloating_error {es : List Extent} {r : Request} (hord : ∀ e ∈ es, e.lower ≤ e.upper)
    (h : placeFloating es r = .error e) :
    r.size = 0 ∧ e = .zeroSize r ∨
      r.size ≠ 0 ∧ e = .noRoom r.size (Tiling.free es) ∧ ∀ f ∈ Tiling.free es, ¬r.HasRoom f := by
  by_cases hsize : r.size = 0
  · rw [placeFloating, if_pos hsize] at h
    exact .inl ⟨hsize, (Except.error.inj h).symm⟩
  rcases placeFloating_eq hsize hord with ⟨pre, f, post, parts, -, -, -, -, hok⟩ | ⟨hnone, herror⟩
  · cases h.symm.trans hok
  · refine .inr ⟨hsize, Except.error.inj (h.symm.trans herror), fun f hf => ?_⟩
    exact hnone f (List.mem_filter.1 hf).1

/-! ## All requests -/

/-- The requests before one of a list, and that one. -/
theorem subperm_of_append {placed rest : List Request} {r : Request}
    (h : (placed ++ r :: rest).Subperm requests) : (r :: placed).Subperm requests := by
  have hsub : (r :: placed).Sublist (r :: (placed ++ rest)) :=
    (List.sublist_append_left placed rest).cons_cons r
  exact hsub.subperm.trans (List.perm_middle.symm.subperm.trans h)

/-- What every error of a layout says. The requests before the one that fails have their blocks, which
divide the window, so that its extents have their bounds in order. -/
theorem layout_error (h : layout requests low high = .error e) : e.Tells requests low high := by
  by_cases hw : high < low
  · rw [layout, if_pos hw] at h
    obtain rfl := Except.error.inj h
    exact ⟨rfl, rfl, hw⟩
  have hle : low ≤ high := UInt32.not_lt.1 hw
  rw [layout_eq hle] at h
  rcases bind_eq_error.1 h with h | ⟨bound, hbound, h⟩
  · obtain ⟨done, r, rest, es, hlist, hdone, hfail⟩ := exists_of_foldlM_eq_error h
    obtain ⟨blocks, hhon, hdiv⟩ :=
      (division_window hle).run (fun _ _ _ _ _ hd hp => placeBound_step hd hp) hdone
    have hsub : (r :: done).Subperm requests :=
      subperm_of_append (hlist ▸ List.filter_sublist.subperm)
    have hr : r ∈ requests.filter (!·.isFloating) := by simp [hlist]
    obtain ⟨hr, hkind⟩ := List.mem_filter.1 hr
    rcases placeBound_error hfail with hspan | ⟨lower, upper, hspan, rfl, hnone⟩
    · exact Request.span_error hr (by simpa using hkind) hspan
    · exact ⟨r, done, hsub, hspan, ⟨blocks, es, hhon, hdiv, rfl⟩, hnone⟩
  · obtain ⟨done, r, rest, es, hlist, hdone, hfail⟩ := exists_of_foldlM_eq_error h
    have hfloat : ∀ r' ∈ done ++ r :: rest, r' ∈ requests ∧ r'.isFloating = true :=
      fun r' hr' => List.mem_filter.1 (hlist ▸ hr')
    obtain ⟨blocks, hhon, hdiv⟩ :=
      (division_window hle).run (fun _ _ _ _ _ hd hp => placeBound_step hd hp) hbound
    obtain ⟨blocks', hhon', hdiv'⟩ := hdiv.run
      (fun _ _ _ r' hr' hd hp => placeFloating_step hd (hfloat r' (by simp [hr'])).2 hp) hdone
    -- all requests with a bound have their blocks by now, and so have the floating ones before `r`
    have hall : (requests.filter (!·.isFloating) ++ done ++ r :: rest).Perm requests := by
      rw [List.append_assoc, ← hlist]
      exact List.perm_append_comm.trans (List.filter_append_perm _ requests)
    have hsub := subperm_of_append hall.subperm
    obtain ⟨hr, hkind⟩ := hfloat r (by simp)
    have hord : ∀ f ∈ es, f.lower ≤ f.upper := fun f hf => (hdiv'.covers.bounds_of_mem hf).2.1
    rcases placeFloating_error hord hfail with ⟨hsize, rfl⟩ | ⟨hsize, rfl, hnone⟩
    · exact ⟨hr, hsize⟩
    · exact ⟨r, _, hsub, hkind, rfl, hsize,
        ⟨_, es, List.rel_append hhon hhon', hdiv', rfl⟩, hnone⟩

end Placement

/-! ## Programs -/

/-- A window that passes the check holds an address. -/
theorem Windows.start_le_last {w : Windows} (h : w.check = .ok ()) (k : Category) :
    (w.region k).start ≤ (w.region k).last := by
  have hlt := (check_region h k).1
  have hlast := Region.toNat_last hlt
  rw [UInt32.lt_iff_toNat_lt] at hlt
  rw [UInt32.le_iff_toNat_le]
  omega

theorem AssemblyError.kind_entry_ne (line : Int) (e : EntryError) :
    (AssemblyError.entry line e).kind ≠ .invariant := by
  cases e with
  | encoding e => cases e <;> simp [kind, EntryError.kind, Instruction.EncodingError.kind]
  | _ => simp [kind, EntryError.kind]

variable {α : Type} [Sized α] {k : Category} {window : Region} {e : AssemblyError}

/-- In a window that holds an address, segments are refused for want of room only. -/
theorem placeSegments_error_kind {segments : List (Segment α)} (hwindow : window.start ≤ window.last)
    (h : placeSegments k window segments = .error e) : e.kind ≠ .invariant := by
  rcases placeSegments_eq_error h with ⟨start, rfl⟩ | ⟨requests, error, rfl, hlayout, hrequests⟩
  · simp [AssemblyError.kind]
  · rcases (layout_error hlayout).kind with hkind | ⟨-, hlow | ⟨r, hr, hmalformed⟩⟩
    · simp [AssemblyError.kind, hkind]
    · exact absurd hlow (UInt32.not_lt.2 hwindow)
    · obtain ⟨hsize, hupper⟩ := hrequests r hr
      rcases hmalformed with hzero | ⟨lower, upper, -, hsome, -⟩
      · exact absurd hzero hsize
      · cases hupper.symm.trans hsome

theorem settle_error_kind {segments : List (Segment α)} {t : SymbolTable}
    (hwindow : window.start ≤ window.last) (h : settle k window segments t = .error e) :
    e.kind ≠ .invariant := by
  rcases bind_eq_error.1 h with hplace | ⟨placed, -, h⟩
  · exact placeSegments_error_kind hwindow hplace
  rcases bind_eq_error.1 h with hsteps | ⟨t', -, h⟩
  · obtain ⟨done, action, rest, t', hactions, -, hfail⟩ := exists_of_foldlM_eq_error hsteps
    have hmem : action ∈ labelActions k window placed := by simp [hactions]
    cases action with
    | define name address line =>
      obtain ⟨t'', hperform⟩ := LabelAction.apply_eq_error.1 hfail
      obtain ⟨r, -, rfl⟩ := LabelAction.perform_define_eq_error.1 hperform
      exact AssemblyError.kind_entry_ne _ _
    | fail error =>
      obtain rfl := Except.error.inj hfail
      obtain ⟨line, start, rfl⟩ := fail_mem_labelActions hmem
      exact AssemblyError.kind_entry_ne _ _
  · cases h

theorem Program.settle_error_kind {w : Windows} {p : Program}
    (hwindow : ∀ k, (w.region k).start ≤ (w.region k).last) (h : p.settle w = .error e) :
    e.kind ≠ .invariant := by
  rcases bind_eq_error.1 h with h | ⟨⟨userText, t⟩, -, h⟩
  · exact MipsAssembler.settle_error_kind (hwindow _) h
  rcases bind_eq_error.1 h with h | ⟨⟨kernelText, t⟩, -, h⟩
  · exact MipsAssembler.settle_error_kind (hwindow _) h
  rcases bind_eq_error.1 h with h | ⟨⟨userData, t⟩, -, h⟩
  · exact MipsAssembler.settle_error_kind (hwindow _) h
  rcases bind_eq_error.1 h with h | ⟨⟨kernelData, t⟩, -, h⟩
  · exact MipsAssembler.settle_error_kind (hwindow _) h
  · cases h

theorem Segment.link_error_kind {t : SymbolTable} {segments : List (Segment Instruction)}
    (h : segments.mapM (Segment.link t) = .error e) : e.kind ≠ .invariant := by
  obtain ⟨s, -, hs⟩ := exists_of_mapM_eq_error h
  obtain ⟨entry, -, hentry⟩ := exists_of_mapM_eq_error (map_eq_error.1 hs)
  rw [Entry.link] at hentry
  split at hentry
  · cases hentry
  · obtain rfl := Except.error.inj hentry
    exact AssemblyError.kind_entry_ne _ _

theorem Program.link_error_kind {t : SymbolTable} {p : Program} (h : p.link t = .error e) :
    e.kind ≠ .invariant := by
  rcases bind_eq_error.1 h with h | ⟨userText, -, h⟩
  · exact Segment.link_error_kind h
  rcases bind_eq_error.1 h with h | ⟨kernelText, -, h⟩
  · exact Segment.link_error_kind h
  · cases h

/-- In windows that pass their own check, a program is never refused as malformed. -/
theorem Program.resolve_error_kind {w : Windows} {p : Program} (hw : w.check = .ok ())
    (h : p.resolve w = .error e) : e.kind ≠ .invariant := by
  rcases bind_eq_error.1 h with h | ⟨-, -, h⟩
  · simp [checkWindows, hw] at h
  rcases bind_eq_error.1 h with h | ⟨⟨settled, t⟩, -, h⟩
  · exact Program.settle_error_kind (Windows.start_le_last hw) h
  rcases bind_eq_error.1 h with h | ⟨linked, -, h⟩
  · exact Program.link_error_kind h
  · cases h

/-- Whatever the order of the turns, no job fails because a program is malformed. -/
theorem Jobs.failed_kind {w : Windows} {p : Program} (hw : w.check = .ok ())
    {schedule : List Category} (h : (p.runJobs w schedule).job k = .failed e) :
    e.kind ≠ .invariant := by
  obtain ⟨done, hconsistent⟩ := Jobs.exists_consistent w p schedule
  rcases hconsistent.failed_cases h with hplace | ⟨placed, -, hfail⟩ | ⟨⟨line, n, rfl⟩, -⟩
  · exact placeSegments_error_kind (Windows.start_le_last hw k) hplace
  · obtain ⟨line, start, rfl⟩ := fail_mem_labelActions hfail
    exact AssemblyError.kind_entry_ne _ _
  · exact AssemblyError.kind_entry_ne _ _

/-- **Errors of placement mean what they say.** A layout that is refused says why. It is refused as
malformed only if the window is inverted, or a request asks for no bytes or has bounds that do not fit
each other or its size, and for want of room otherwise; so nothing that goes on inside a layout is
ever found to be malformed. A program makes no malformed requests: in windows that pass their own check
it is never refused as malformed, neither by its layout nor by what comes after it, and whatever the
order in which its categories take turns, none of them is. -/
theorem refusal_tells :
    (∀ requests low high e, layout requests low high = .error e → e.Tells requests low high ∧
      (e.kind = .invariant → high < low ∨ ∃ r ∈ requests, r.Malformed) ∧
      (e.kind ≠ .invariant → e.kind = .noFit)) ∧
    (∀ (w : Windows) (p : Program) e, w.check = .ok () → p.resolve w = .error e →
      e.kind ≠ .invariant) ∧
    ∀ (w : Windows) (p : Program) schedule k e, w.check = .ok () →
      (p.runJobs w schedule).job k = .failed e → e.kind ≠ .invariant := by
  refine ⟨?_, ?_, ?_⟩
  · intro requests low high e h
    have htells := layout_error h
    refine ⟨htells, fun hkind => ?_, fun hkind => ?_⟩
    · rcases htells.kind with hfit | ⟨-, hmalformed⟩
      · cases hkind.symm.trans hfit
      · exact hmalformed
    · rcases htells.kind with hfit | ⟨hinvariant, -⟩
      · exact hfit
      · exact absurd hinvariant hkind
  · intro w p e hw h
    exact Program.resolve_error_kind hw h
  · intro w p schedule k e hw h
    exact Jobs.failed_kind hw h

/-- Requests that fill the address space, and one more. -/
def fullRequests : List Request :=
  [.anywhere 1 none, .startingAt 0 0xFFFFFFFF none, .endingAt 0xFFFFFFFF 1 none]

/-- Data that fits neither below nor above another segment of its program. -/
def wideProgram : Program where
  userData := [
    { start := some { address := some 0x40000000 },
      entries := [{ place := none, item := .space 8, line := 2 }] },
    { start := none, entries := [{ place := none, item := .space 0x40000000, line := 4 }] }]

/-- Two blocks fill the address space up to its last address and leave no room for one more byte. A
request for no bytes is malformed. A program that does not fit is refused for want of room, and so is
its data when it is their turn. -/
theorem refusal_tells_full :
    ((PlacementError.noRoom 1 []).Tells fullRequests 0 0xFFFFFFFF ∧
      (PlacementError.noRoom 1 []).kind = .noFit) ∧
    (∃ r ∈ [Request.anywhere 0 none], r.Malformed) ∧
    (∃ e, wideProgram.resolve {} = .error e ∧ e.kind ≠ .invariant) ∧
    ∃ e, (wideProgram.runJobs {} [.data .user]).job (.data .user) = .failed e ∧
      e.kind ≠ .invariant := by
  have hfull : layout fullRequests 0 0xFFFFFFFF = .error (.noRoom 1 []) := by decide
  have hzero : layout [.anywhere 0 none] 0 0 = .error (.zeroSize (.anywhere 0 none)) := by decide
  let error : AssemblyError := .layout (.data .user) .staticData (.noRoom 0x40000000
    [⟨0x10000000, 0x3FFFFFFF, .free, none⟩, ⟨0x40000008, 0x7FFFFFFF, .free, none⟩])
  have hwide : wideProgram.resolve {} = .error error := rfl
  have hjob : (wideProgram.runJobs {} [.data .user]).job (.data .user) = .failed error := rfl
  obtain ⟨htells, -, hkind⟩ := refusal_tells.1 _ _ _ _ hfull
  obtain ⟨-, hmalformed, -⟩ := refusal_tells.1 _ _ _ _ hzero
  refine ⟨⟨htells, hkind (by decide)⟩, ?_, ⟨_, hwide, refusal_tells.2.1 {} _ _ rfl hwide⟩,
    ⟨_, hjob, refusal_tells.2.2 {} _ _ _ _ rfl hjob⟩⟩
  exact (hmalformed rfl).resolve_left (by decide)

end MipsAssembler
