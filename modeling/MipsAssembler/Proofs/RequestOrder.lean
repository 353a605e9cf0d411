import Mathlib.Data.List.Perm.Basic
import MipsAssembler.Proofs.Acceptance

/-!
# The order of requests

Requests with a given bound may come in any order. A run over them cuts the window up in another way
for each order, but what is left in the end is known by the blocks alone: there is only one division
of a window into given blocks and maximal gaps (`Division.unique`). So a run over such requests is
described without an order (`foldlM_placeBound_eq_ok`): its outcome is the division into their blocks.

From this follows when requests with a bound are accepted (`exists_layout_iff`), and that a layout
depends on the order of the floating requests only (`layout_eq_ok_of_perm`).
-/

namespace MipsAssembler

open Outcome Tiling

/-! ## Divisions are known by their blocks -/

namespace Tiling

theorem Covers.pairwise {a b : Nat} {es : List Extent} (h : Covers a es b) :
    es.Pairwise fun e f => e.upper.toNat < f.lower.toNat := by
  induction es generalizing a with
  | nil => exact .nil
  | cons e rest ih =>
    obtain ⟨-, -, h⟩ := h
    exact List.pairwise_cons.2 ⟨fun f hf => (h.bounds_of_mem hf).1, ih h⟩

theorem Covers.eq_nil {a : Nat} {es : List Extent} (h : Covers a es a) : es = [] := by
  cases es with
  | nil => rfl
  | cons e rest =>
    obtain ⟨hlow, hord, hup⟩ := h.bounds_of_mem (List.mem_cons_self ..)
    rw [UInt32.le_iff_toNat_le] at hord
    omega

end Tiling

namespace Placement

/-- Whatever is not in use is free and has no owner. -/
def Unused (es : List Extent) : Prop :=
  ∀ e ∈ es, e.status ≠ .allocated → e.status = .free ∧ e.owner = none

/-- A free extent reaches up to the next block, or to the end if there is none. -/
theorem upper_of_maximal {b : Nat} {e : Extent} {rest : List Extent}
    (hc : Covers (e.upper.toNat + 1) rest b) (hmax : (e :: rest).IsChain NotBothFree)
    (hunused : Unused rest) (hfree : e.status = .free) :
    e.upper.toNat + 1 = ((allocated rest).head?.map (·.lower.toNat)).getD b := by
  cases rest with
  | nil => exact hc
  | cons f rest =>
    have hf : f.status = .allocated := by
      by_contra hf
      exact (List.isChain_cons_cons.1 hmax).1 ⟨hfree, (hunused f (by simp) hf).1⟩
    rw [allocated_cons_of_allocated hf]
    exact hc.1.symm

/-- Two coverings of the same addresses without neighbouring gaps that have the same blocks are the
same. -/
theorem eq_of_covers {a b : Nat} {es es' : List Extent} (hc : Covers a es b) (hc' : Covers a es' b)
    (hmax : es.IsChain NotBothFree) (hmax' : es'.IsChain NotBothFree) (hunused : Unused es)
    (hunused' : Unused es') (hblocks : allocated es = allocated es') : es = es' := by
  induction es generalizing a es' with
  | nil =>
    obtain rfl : a = b := hc
    exact hc'.eq_nil.symm
  | cons e rest ih =>
    cases es' with
    | nil =>
      obtain rfl : a = b := hc'
      exact hc.eq_nil
    | cons e' rest' =>
      obtain ⟨hlow, hord, hrest⟩ := hc
      obtain ⟨hlow', hord', hrest'⟩ := hc'
      have htail : Unused rest := fun f hf => hunused f (by simp [hf])
      have htail' : Unused rest' := fun f hf => hunused' f (by simp [hf])
      -- the first block of a list whose first extent is free begins behind that extent
      have hclash {f g : Extent} {gs : List Extent} {c : Nat} (hg : Covers (g.upper.toNat + 1) gs c)
          (hf : f.lower.toNat = a) (hglow : g.lower.toNat = a) (hgord : g.lower ≤ g.upper)
          (hmem : f ∈ allocated gs) : False := by
        have hbound := (hg.bounds_of_mem (List.mem_filter.1 hmem).1).1
        rw [UInt32.le_iff_toNat_le] at hgord
        omega
      by_cases he : e.status = .allocated <;> by_cases he' : e'.status = .allocated
      · rw [allocated_cons_of_allocated he, allocated_cons_of_allocated he'] at hblocks
        obtain ⟨rfl, hlater⟩ := List.cons.inj hblocks
        rw [ih hrest hrest' hmax.tail hmax'.tail htail htail' hlater]
      · have hfree' := (hunused' e' (by simp) he').1
        rw [allocated_cons_of_allocated he, allocated_cons_of_free hfree'] at hblocks
        exact (hclash hrest' hlow hlow' hord' (hblocks ▸ List.mem_cons_self ..)).elim
      · have hfree := (hunused e (by simp) he).1
        rw [allocated_cons_of_free hfree, allocated_cons_of_allocated he'] at hblocks
        exact (hclash hrest hlow' hlow hord (hblocks ▸ List.mem_cons_self ..)).elim
      · obtain ⟨hfree, howner⟩ := hunused e (by simp) he
        obtain ⟨hfree', howner'⟩ := hunused' e' (by simp) he'
        rw [allocated_cons_of_free hfree, allocated_cons_of_free hfree'] at hblocks
        have hupper : e.upper = e'.upper := by
          have hend := upper_of_maximal hrest hmax htail hfree
          have hend' := upper_of_maximal hrest' hmax' htail' hfree'
          rw [hblocks] at hend
          exact UInt32.toNat_inj.1 (by omega)
        have hlower : e.lower = e'.lower := UInt32.toNat_inj.1 (hlow.trans hlow'.symm)
        have hextent : e = e' := by
          obtain ⟨lower, upper, status, owner⟩ := e
          obtain ⟨lower', upper', status', owner'⟩ := e'
          simp_all
        rw [hupper] at hrest
        rw [hextent, ih hrest hrest' hmax.tail hmax'.tail htail htail' hblocks]

theorem Division.unique {low high : UInt32} {blocks es es' : List Extent}
    (h : Division low high blocks es) (h' : Division low high blocks es') : es = es' := by
  refine eq_of_covers h.covers h'.covers h.maximal h'.maximal h.unused h'.unused ?_
  have hsorted {es : List Extent} (h : Division low high blocks es) :
      (allocated es).Pairwise fun e f => e.upper.toNat < f.lower.toNat :=
    h.covers.pairwise.filter _
  refine (h.placed.trans h'.placed.symm).eq_of_pairwise ?_ (hsorted h) (hsorted h')
  intro e f he hf hef hfe
  have hord := (h.covers.bounds_of_mem (List.mem_filter.1 he).1).2.1
  have hord' := (h'.covers.bounds_of_mem (List.mem_filter.1 hf).1).2.1
  rw [UInt32.le_iff_toNat_le] at hord hord'
  omega

/-! ## Requests with a bound -/

end Placement

/-- The block is the span of the request, in use by its owner. -/
def Request.SpannedBy (r : Request) (block : Extent) : Prop :=
  ∃ lower upper, r.span = .ok (lower, upper) ∧
    block = { lower, upper, status := .allocated, owner := r.owner }

theorem Request.rightUnique_spannedBy : Relator.RightUnique Request.SpannedBy := by
  rintro r block block' ⟨lower, upper, hspan, rfl⟩ ⟨lower', upper', hspan', rfl⟩
  obtain ⟨rfl, rfl⟩ := Prod.mk.inj (Except.ok.inj (hspan.symm.trans hspan'))
  rfl

namespace Placement

theorem placeBound_spanned {low high : UInt32} {blocks es es' : List Extent} {r : Request}
    (h : Division low high blocks es) (hp : placeBound es r = .ok es') :
    ∃ block, r.SpannedBy block ∧ Division low high (block :: blocks) es' := by
  obtain ⟨block, hhon, hd⟩ := placeBound_step h hp
  obtain ⟨⟨lower, upper⟩, hspan, -⟩ := bind_eq_ok.1 hp
  obtain ⟨hl, hu⟩ := hhon.bounds_of_span hspan
  refine ⟨block, ⟨lower, upper, hspan, ?_⟩, hd⟩
  rw [← hl, ← hu, ← hhon.allocated, ← hhon.owner]

theorem Division.bounds {low high : UInt32} {blocks es : List Extent}
    (h : Division low high blocks es) {b : Extent} (hb : b ∈ blocks) :
    low ≤ b.lower ∧ b.lower ≤ b.upper ∧ b.upper ≤ high := by
  obtain ⟨hlow, hord, hhigh⟩ :=
    h.covers.bounds_of_mem (List.mem_filter.1 (h.placed.mem_iff.2 hb)).1
  exact ⟨UInt32.le_iff_toNat_le.2 hlow, hord, UInt32.le_iff_toNat_le.2 (Nat.lt_succ_iff.1 hhigh)⟩

theorem Division.apart {low high : UInt32} {blocks es : List Extent}
    (h : Division low high blocks es) :
    blocks.Pairwise fun b c => b.upper < c.lower ∨ c.upper < b.lower := by
  have hsorted : (allocated es).Pairwise fun b c => b.upper < c.lower ∨ c.upper < b.lower :=
    (h.covers.pairwise.filter _).imp fun hlt => .inl (UInt32.lt_iff_toNat_lt.2 hlt)
  exact (h.placed.pairwise_iff fun hbc => hbc.symm).1 hsorted

theorem Division.fitsIn {low high : UInt32} {blocks es : List Extent} {requests : List Request}
    (h : Division low high blocks es) (hblocks : List.Forall₂ Request.SpannedBy requests blocks) :
    ∀ r ∈ requests, r.FitsIn low high := by
  intro r hr
  obtain ⟨block, hmem, lower, upper, hspan, rfl⟩ := exists_of_mem_left hblocks hr
  obtain ⟨hlow, -, hhigh⟩ := h.bounds hmem
  exact ⟨lower, upper, hspan, hlow, hhigh⟩

theorem Division.spansApart {low high : UInt32} {blocks es : List Extent} {requests : List Request}
    (h : Division low high blocks es) (hblocks : List.Forall₂ Request.SpannedBy requests blocks) :
    requests.Pairwise Request.SpansApart := by
  refine pairwise_of_forall₂ ?_ hblocks.flip h.apart
  rintro - - r r' ⟨l, u, hspan, rfl⟩ ⟨l', u', hspan', rfl⟩ hapart lower upper lower' upper' hr hr'
  obtain ⟨rfl, rfl⟩ := Prod.mk.inj (Except.ok.inj (hspan.symm.trans hr))
  obtain ⟨rfl, rfl⟩ := Prod.mk.inj (Except.ok.inj (hspan'.symm.trans hr'))
  exact hapart

theorem division_of_foldlM_placeBound {low high : UInt32} {requests : List Request}
    {es : List Extent} (hle : low ≤ high)
    (h : requests.foldlM placeBound [{ lower := low, upper := high }] = .ok es) :
    ∃ blocks, List.Forall₂ Request.SpannedBy requests blocks ∧ Division low high blocks es := by
  refine @foldlM_run _ _ _ placeBound (fun done es => ∃ blocks,
    List.Forall₂ Request.SpannedBy done blocks ∧ Division low high blocks es) requests [] _ _
    ?_ h ⟨[], .nil, division_window hle⟩
  rintro done es r es' - ⟨blocks, hblocks, hd⟩ hp
  obtain ⟨block, hblock, hd'⟩ := placeBound_spanned hd hp
  refine ⟨blocks ++ [block], List.rel_append hblocks (.cons hblock .nil), hd'.perm ?_⟩
  exact (List.perm_append_singleton block _).symm

/-- A run over requests with a bound has as its outcome the division of the window into their spans,
in whatever order they come. -/
theorem foldlM_placeBound_eq_ok {low high : UInt32} {requests : List Request} {es : List Extent}
    (hle : low ≤ high) :
    requests.foldlM placeBound [{ lower := low, upper := high }] = .ok es ↔
      ∃ blocks, List.Forall₂ Request.SpannedBy requests blocks ∧ Division low high blocks es := by
  refine ⟨division_of_foldlM_placeBound hle, ?_⟩
  rintro ⟨blocks, hblocks, hd⟩
  -- the run succeeds, and what it leaves is a division into the same blocks
  obtain ⟨es', -, hes', -⟩ := (division_window hle).exists_run (hd.fitsIn hblocks) (by simp)
    (hd.spansApart hblocks)
  obtain ⟨blocks', hblocks', hd'⟩ := division_of_foldlM_placeBound hle hes'
  obtain rfl := List.right_unique_forall₂' Request.rightUnique_spannedBy hblocks hblocks'
  rw [hes', hd.unique hd']

/-! ## Layouts -/

/-- A layout is the two runs over its requests: the check at the end finds nothing. -/
theorem layout_eq {requests : List Request} {low high : UInt32} (hle : low ≤ high) :
    layout requests low high =
      (requests.filter (!·.isFloating)).foldlM placeBound [{ lower := low, upper := high }] >>=
        (requests.filter (·.isFloating)).foldlM placeFloating := by
  rw [layout, if_neg (UInt32.not_lt.2 hle)]
  cases hb : (requests.filter (!·.isFloating)).foldlM placeBound
      [{ lower := low, upper := high }] with
  | error e => rfl
  | ok bound =>
    change ((requests.filter (·.isFloating)).foldlM placeFloating bound >>= _) =
      (requests.filter (·.isFloating)).foldlM placeFloating bound
    cases hf : (requests.filter (·.isFloating)).foldlM placeFloating bound with
    | error e => rfl
    | ok memory =>
      obtain ⟨bs, -, hd⟩ := (division_window hle).run
        (fun _ _ _ _ _ hd hp => placeBound_step hd hp) hb
      obtain ⟨fs, -, hd⟩ := hd.run
        (fun _ _ _ r hr hd hp => placeFloating_step hd (by simpa using (List.mem_filter.1 hr).2) hp)
        hf
      exact bind_eq_ok.2 ⟨memory, rfl,
        bind_eq_ok.2 ⟨(), check_eq_ok.2 (isTiling_of_covers hle hd.covers), rfl⟩⟩

/-- A layout divides the window into the spans of the requests with a bound, and then places the
floating requests one after the other. -/
theorem layout_eq_ok {requests : List Request} {low high : UInt32} {es : List Extent}
    (hle : low ≤ high) :
    layout requests low high = .ok es ↔
      ∃ bound, (∃ blocks, List.Forall₂ Request.SpannedBy (requests.filter (!·.isFloating)) blocks ∧
          Division low high blocks bound) ∧
        (requests.filter (·.isFloating)).foldlM placeFloating bound = .ok es := by
  simp only [layout_eq hle, bind_eq_ok, foldlM_placeBound_eq_ok hle]

/-- Requests with a bound whose spans are well formed are accepted exactly if the spans lie in the
window, apart from one another. -/
theorem exists_layout_iff {requests : List Request} {low high : UInt32} (hle : low ≤ high)
    (hspan : ∀ r ∈ requests, ∃ span, r.span = .ok span) :
    (∃ es, layout requests low high = .ok es) ↔
      (∀ r ∈ requests, r.FitsIn low high) ∧ requests.Pairwise Request.SpansApart := by
  refine ⟨?_, fun ⟨hfits, hapart⟩ => exists_layout hle hfits hapart⟩
  rintro ⟨es, h⟩
  obtain ⟨bound, ⟨blocks, hblocks, hd⟩, -⟩ := (layout_eq_ok hle).1 h
  have hall : requests.filter (!·.isFloating) = requests := by
    refine List.filter_eq_self.2 fun r hr => ?_
    obtain ⟨⟨lower, upper⟩, hr⟩ := hspan r hr
    simp [Request.isFloating_of_span hr]
  rw [hall] at hblocks
  exact ⟨hd.fitsIn hblocks, hd.spansApart hblocks⟩

theorem layout_eq_ok_of_perm {requests requests' : List Request} {low high : UInt32}
    {es : List Extent}
    (hbound : (requests.filter (!·.isFloating)).Perm (requests'.filter (!·.isFloating)))
    (hfloating : requests.filter (·.isFloating) = requests'.filter (·.isFloating))
    (h : layout requests low high = .ok es) : layout requests' low high = .ok es := by
  obtain ⟨hle, -⟩ := layout_division h
  obtain ⟨bound, ⟨blocks, hblocks, hd⟩, hrun⟩ := (layout_eq_ok hle).1 h
  obtain ⟨blocks', hblocks', hperm⟩ := List.perm_comp_forall₂ hbound.symm hblocks
  exact (layout_eq_ok hle).2 ⟨bound, ⟨blocks', hblocks', hd.perm hperm.symm⟩, hfloating ▸ hrun⟩

/-- **Requests with a bound are accepted exactly when they can be, in any order.** If their spans are
well formed, a window has a layout for them exactly if the spans lie in it, apart from one another.
And requests of which those with a bound are the same but for their order, and the floating ones are
the same in the same order, have the same layout, if any. -/
theorem layout_order_independent :
    (∀ (requests : List Request) (low high : UInt32), low ≤ high →
      (∀ r ∈ requests, ∃ span, r.span = .ok span) →
      ((∃ es, layout requests low high = .ok es) ↔
        (∀ r ∈ requests, r.FitsIn low high) ∧ requests.Pairwise Request.SpansApart)) ∧
    ∀ (requests requests' : List Request) (low high : UInt32),
      (requests.filter (!·.isFloating)).Perm (requests'.filter (!·.isFloating)) →
      requests.filter (·.isFloating) = requests'.filter (·.isFloating) →
      ∀ es, layout requests low high = .ok es ↔ layout requests' low high = .ok es := by
  refine ⟨fun requests low high hle hspan => exists_layout_iff hle hspan, ?_⟩
  intro requests requests' low high hbound hfloating es
  exact ⟨layout_eq_ok_of_perm hbound hfloating, layout_eq_ok_of_perm hbound.symm hfloating.symm⟩

/-- Requests of each shape: their spans fit, and their layout is the one of another order. -/
theorem layout_order_independent_reordered :
    ((∀ r ∈ [Request.fixed 0x30 0x33 (some 1), .startingAt 0x20 8 (some 2), .endingAt 0x1F 4 (some 3)],
        r.FitsIn 0x10 0xFF) ∧
      [Request.fixed 0x30 0x33 (some 1), .startingAt 0x20 8 (some 2),
        .endingAt 0x1F 4 (some 3)].Pairwise Request.SpansApart) ∧
    ∃ es, layout [.fixed 0x30 0x33 (some 1), .anywhere 0x10 (some 0), .startingAt 0x20 8 (some 2),
        .anywhere 4 (some 4)] 0x10 0xFF = .ok es ∧
      layout [.anywhere 0x10 (some 0), .startingAt 0x20 8 (some 2), .anywhere 4 (some 4),
        .fixed 0x30 0x33 (some 1)] 0x10 0xFF = .ok es := by
  have hspan : ∀ r ∈ [Request.fixed 0x30 0x33 (some 1), .startingAt 0x20 8 (some 2),
      .endingAt 0x1F 4 (some 3)], ∃ span, r.span = .ok span := by
    simp only [List.forall_mem_cons, List.not_mem_nil, false_imp_iff, implies_true, and_true]
    exact ⟨⟨_, rfl⟩, ⟨_, rfl⟩, ⟨_, rfl⟩⟩
  refine ⟨(layout_order_independent.1 _ _ _ (by decide) hspan).1 ⟨_, rfl⟩, _, rfl, ?_⟩
  exact (layout_order_independent.2 _ _ _ _ (by decide) rfl _).1 rfl

end Placement

end MipsAssembler
