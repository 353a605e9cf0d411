import Mathlib.Order.Bounds.Basic
import MipsAssembler.Proofs.RequestOrder

/-!
# First fit is the lowest fit

A floating request goes to the low end of the first extent that is free and large enough. Nothing in
this looks for a lowest address; but extents stand in ascending order and no two gaps are neighbours,
so that an address fits exactly if it lies, with the bytes that follow, in one gap
(`Division.exists_room`). Hence the first gap with room begins with the lowest address that fits, and
there is no room only if no address fits (`Division.placeFloating_cases`).

`layout_first_fit` says it of a layout: `Request.FitsAt` is the condition on an address, and the
ranges placed before are the allocated extents of the layout of what comes before.
-/

namespace MipsAssembler

open Outcome Tiling

/-- The bytes that are asked for fit at the address `a`: they lie in the window, and none of them
lies in a block. -/
def Request.FitsAt (low high : UInt32) (blocks : List Extent) (r : Request) (a : Nat) : Prop :=
  low.toNat ≤ a ∧ a + r.size.toNat ≤ high.toNat + 1 ∧
    ∀ b ∈ blocks, b.upper.toNat < a ∨ a + r.size.toNat ≤ b.lower.toNat

instance (low high : UInt32) (blocks : List Extent) (r : Request) (a : Nat) :
    Decidable (r.FitsAt low high blocks a) :=
  inferInstanceAs (Decidable (_ ∧ _ ∧ _))

/-- The extent is free and has room for the request. -/
def Request.HasRoom (r : Request) (e : Extent) : Prop := e.isFree = true ∧ r.size.toUInt64 ≤ e.size

namespace Placement

/-! ## Gaps with room -/

theorem hasRoom_iff {r : Request} {e : Extent} (h : e.lower ≤ e.upper) :
    r.HasRoom e ↔ e.status = .free ∧ e.lower.toNat + r.size.toNat ≤ e.upper.toNat + 1 := by
  have hsize := toNat_extentSize h
  rw [Request.HasRoom, Extent.isFree, decide_eq_true_iff, UInt64.le_iff_toNat_le,
    UInt32.toNat_toUInt64]
  exact and_congr_right fun _ => by omega

/-- The bytes of a request fit at the start of a gap with room. -/
theorem Division.fitsAt_lower {low high : UInt32} {blocks es : List Extent} {r : Request}
    {e : Extent} (h : Division low high blocks es) (he : e ∈ es) (hroom : r.HasRoom e) :
    r.FitsAt low high blocks e.lower.toNat := by
  obtain ⟨hlow, hord, hhigh⟩ := h.covers.bounds_of_mem he
  obtain ⟨hfree, hfit⟩ := (hasRoom_iff hord).1 hroom
  refine ⟨hlow, by omega, fun b hb => ?_⟩
  obtain ⟨hb, hstatus⟩ := List.mem_filter.1 (h.placed.mem_iff.2 hb)
  have hne : b ≠ e := by
    rintro rfl
    simp [hfree] at hstatus
  rcases h.covers.apart hb he hne with hlt | hlt
  · exact .inl hlt
  · exact .inr (by omega)

/-- Wherever the bytes of a request fit, they lie in a gap with room. -/
theorem Division.exists_room {low high : UInt32} {blocks es : List Extent} {r : Request} {a : Nat}
    (h : Division low high blocks es) (hsize : r.size ≠ 0) (ha : r.FitsAt low high blocks a) :
    ∃ e ∈ es, r.HasRoom e ∧ e.lower.toNat ≤ a := by
  obtain ⟨hlow, hhigh, hapart⟩ := ha
  have hpos : 0 < r.size.toNat := Nat.pos_of_ne_zero fun h0 => hsize (UInt32.toNat_inj.1 h0)
  have hlt := high.toNat_lt_size
  have hlower : (UInt32.ofNat a).toNat = a := UInt32.toNat_ofNat_of_lt' (by omega)
  have hupper : (UInt32.ofNat (a + r.size.toNat - 1)).toNat = a + r.size.toNat - 1 :=
    UInt32.toNat_ofNat_of_lt' (by omega)
  obtain ⟨e, he, hfree, hin⟩ := @Division.exists_free low high (UInt32.ofNat a)
    (UInt32.ofNat (a + r.size.toNat - 1)) blocks es h (UInt32.le_iff_toNat_le.2 (by omega))
    (UInt32.le_iff_toNat_le.2 (by omega)) (UInt32.le_iff_toNat_le.2 (by omega)) (by
      intro b hb
      simp only [UInt32.lt_iff_toNat_lt, hlower, hupper]
      have := hapart b hb
      omega)
  simp only [Extent.isFree, decide_eq_true_iff] at hfree
  simp only [Extent.contains, Bool.and_eq_true, decide_eq_true_iff, UInt32.le_iff_toNat_le, hlower,
    hupper] at hin
  refine ⟨e, he, (hasRoom_iff (h.covers.bounds_of_mem he).2.1).2 ⟨hfree, by omega⟩, hin.1⟩

/-- The first gap with room begins with the lowest address that fits. -/
theorem Division.isLeast_lower {low high : UInt32} {blocks pre post : List Extent} {r : Request}
    {e : Extent} (h : Division low high blocks (pre ++ e :: post)) (hsize : r.size ≠ 0)
    (hpre : ∀ f ∈ pre, ¬r.HasRoom f) (hroom : r.HasRoom e) :
    IsLeast {a | r.FitsAt low high blocks a} e.lower.toNat := by
  refine ⟨h.fitsAt_lower (by simp) hroom, fun a ha => ?_⟩
  obtain ⟨f, hf, hroom', hle⟩ := h.exists_room hsize ha
  rcases List.mem_append.1 hf with hf | hf
  · exact absurd hroom' (hpre f hf)
  rcases List.mem_cons.1 hf with rfl | hf
  · exact hle
  · -- what stands behind `e` begins behind it
    obtain ⟨-, hpair, -⟩ := List.pairwise_append.1 h.covers.pairwise
    have hlt := (List.pairwise_cons.1 hpair).1 f hf
    have hord := (h.covers.bounds_of_mem (e := e) (by simp)).2.1
    rw [UInt32.le_iff_toNat_le] at hord
    omega

/-! ## One floating request -/

/-- Nothing is put in if no extent is chosen. -/
theorem insertFirst_eq_none {choose : Extent → Option Extent} {es : List Extent}
    (h : ∀ e ∈ es, choose e = none) : insertFirst choose es = .ok none := by
  induction es with
  | nil => rfl
  | cons e rest ih =>
    rw [List.forall_mem_cons] at h
    simp [insertFirst, h.1, ih h.2, Except.map]

/-- The block that a floating request gets in an extent with room. -/
def blockFor (r : Request) (e : Extent) : Extent :=
  { lower := e.lower, upper := e.lower + r.size - 1, status := .allocated, owner := r.owner }

theorem toNat_upper_blockFor {r : Request} {e : Extent} (hsize : r.size ≠ 0)
    (hord : e.lower ≤ e.upper) (hroom : r.HasRoom e) :
    (blockFor r e).upper.toNat + 1 = e.lower.toNat + r.size.toNat := by
  obtain ⟨-, hfit⟩ := (hasRoom_iff hord).1 hroom
  have hpos : 0 < r.size.toNat := Nat.pos_of_ne_zero fun h0 => hsize (UInt32.toNat_inj.1 h0)
  have hlt := e.upper.toNat_lt
  exact toNat_add_sub_one hpos (by omega)

theorem honouredBy_blockFor {r : Request} {e : Extent} (hr : r.isFloating = true)
    (hsize : r.size ≠ 0) (hord : e.lower ≤ e.upper) (hroom : r.HasRoom e) :
    r.HonouredBy (blockFor r e) := by
  simp only [Request.isFloating, Bool.and_eq_true, Option.isNone_iff_eq_none] at hr
  refine ⟨rfl, rfl, toNat_upper_blockFor hsize hord hroom, ?_, ?_⟩
  · simp [hr.1]
  · simp [hr.2]

theorem exists_insert_blockFor {r : Request} {e : Extent} (hsize : r.size ≠ 0)
    (hord : e.lower ≤ e.upper) (hroom : r.HasRoom e) :
    ∃ parts, e.insert (blockFor r e) = .ok parts := by
  obtain ⟨-, hfit⟩ := (hasRoom_iff hord).1 hroom
  have hupper := toNat_upper_blockFor hsize hord hroom
  have hpos : 0 < r.size.toNat := Nat.pos_of_ne_zero fun h0 => hsize (UInt32.toNat_inj.1 h0)
  have hlower : (blockFor r e).lower.toNat = e.lower.toNat := rfl
  refine exists_insert hroom.1 (UInt32.le_iff_toNat_le.2 (by omega)) ?_
  simp only [Extent.contains, Bool.and_eq_true, decide_eq_true_iff, UInt32.le_iff_toNat_le]
  omega

/-- Placing a floating request puts its block into the first extent with room, or finds that there is
none. -/
theorem placeFloating_eq {es : List Extent} {r : Request} (hsize : r.size ≠ 0)
    (hord : ∀ e ∈ es, e.lower ≤ e.upper) :
    (∃ pre e post parts, es = pre ++ e :: post ∧ (∀ f ∈ pre, ¬r.HasRoom f) ∧ r.HasRoom e ∧
        e.insert (blockFor r e) = .ok parts ∧ placeFloating es r = .ok (pre ++ parts ++ post)) ∨
      (∀ e ∈ es, ¬r.HasRoom e) ∧ placeFloating es r = .error (.noRoom r.size (free es)) := by
  let choose (e : Extent) : Option Extent :=
    if e.isFree && r.size.toUInt64 ≤ e.size then some (blockFor r e) else none
  have hchoose (e block : Extent) : choose e = some block ↔ r.HasRoom e ∧ blockFor r e = block := by
    simp [choose, Request.HasRoom]
  have hnone (e : Extent) : choose e = none ↔ ¬r.HasRoom e := by
    simp [choose, Request.HasRoom]
  by_cases hroom : ∃ e ∈ es, r.HasRoom e
  · have hput : ∀ e ∈ es, ∀ block, choose e = some block → ∃ parts, e.insert block = .ok parts := by
      intro e he block hblock
      obtain ⟨hroom, rfl⟩ := (hchoose e block).1 hblock
      exact exists_insert_blockFor hsize (hord e he) hroom
    obtain ⟨e, he, hroom⟩ := hroom
    obtain ⟨es', hes'⟩ := exists_insertFirst hput ⟨e, he, by
      rw [(hchoose e _).2 ⟨hroom, rfl⟩]
      rfl⟩
    obtain ⟨pre, f, post, block, parts, rfl, hpre, hf, hparts, rfl⟩ := insertFirst_inv hes'
    obtain ⟨hroom, rfl⟩ := (hchoose f block).1 hf
    refine .inl ⟨pre, f, post, parts, rfl, fun g hg => (hnone g).1 (hpre g hg), hroom, hparts, ?_⟩
    rw [placeFloating, if_neg hsize]
    exact bind_eq_ok.2 ⟨_, hes', rfl⟩
  · have hroom : ∀ e ∈ es, ¬r.HasRoom e := fun e he h => hroom ⟨e, he, h⟩
    have hfound := insertFirst_eq_none fun e he => (hnone e).2 (hroom e he)
    refine .inr ⟨hroom, ?_⟩
    rw [placeFloating, if_neg hsize]
    exact bind_eq_error.2 (.inr ⟨none, hfound, rfl⟩)

/-- **One floating request.** Without bytes it is refused. Otherwise it is placed at the lowest address
that fits, and if none does there is no room for it. -/
theorem Division.placeFloating_cases {low high : UInt32} {blocks es : List Extent} {r : Request}
    (h : Division low high blocks es) (hr : r.isFloating = true) :
    (r.size = 0 ∧ placeFloating es r = .error (.zeroSize r)) ∨
      (r.size ≠ 0 ∧ (∀ a, ¬r.FitsAt low high blocks a) ∧
        placeFloating es r = .error (.noRoom r.size (free es))) ∨
      r.size ≠ 0 ∧ ∃ es' block, placeFloating es r = .ok es' ∧ r.HonouredBy block ∧
        IsLeast {a | r.FitsAt low high blocks a} block.lower.toNat ∧
        Division low high (block :: blocks) es' := by
  by_cases hsize : r.size = 0
  · refine .inl ⟨hsize, ?_⟩
    rw [placeFloating, if_pos hsize]
  have hord : ∀ e ∈ es, e.lower ≤ e.upper := fun e he => (h.covers.bounds_of_mem he).2.1
  rcases placeFloating_eq hsize hord with
    ⟨pre, e, post, parts, rfl, hpre, hroom, hparts, hp⟩ | ⟨hnone, hp⟩
  · have hhon := honouredBy_blockFor hr hsize (hord e (by simp)) hroom
    exact .inr (.inr ⟨hsize, _, _, hp, hhon, h.isLeast_lower hsize hpre hroom,
      h.insert hparts hhon.allocated⟩)
  · refine .inr (.inl ⟨hsize, fun a ha => ?_, hp⟩)
    obtain ⟨e, he, hroom, -⟩ := h.exists_room hsize ha
    exact hnone e he hroom

/-! ## Layouts -/

/-- The layout as far as some of the floating requests: all requests with a bound are placed, and of
the floating ones those that are given. -/
def layoutUpTo (requests floating : List Request) (low high : UInt32) :
    Except PlacementError (List Extent) :=
  layout (requests.filter (!·.isFloating) ++ floating) low high

theorem layoutUpTo_eq {requests floating : List Request} {low high : UInt32} (hle : low ≤ high)
    (hfloating : ∀ r ∈ floating, r.isFloating = true) :
    layoutUpTo requests floating low high =
      (requests.filter (!·.isFloating)).foldlM placeBound [{ lower := low, upper := high }] >>=
        floating.foldlM placeFloating := by
  have hbound : (requests.filter (!·.isFloating) ++ floating).filter (!·.isFloating) =
      requests.filter (!·.isFloating) := by
    have hnone : floating.filter (!·.isFloating) = [] :=
      List.filter_eq_nil_iff.2 fun r hr => by simp [hfloating r hr]
    rw [List.filter_append, hnone, List.filter_filter]
    simp
  have hrest : (requests.filter (!·.isFloating) ++ floating).filter (·.isFloating) = floating := by
    rw [List.filter_append, List.filter_filter, List.filter_eq_self.2 hfloating]
    simp
  rw [layoutUpTo, layout_eq hle, hbound, hrest]

/-- The layout goes on with the next floating request. -/
theorem layoutUpTo_next {requests before after : List Request} {r : Request} {low high : UInt32}
    {memory : List Extent} (hsplit : requests.filter (·.isFloating) = before ++ r :: after)
    (hbefore : layoutUpTo requests before low high = .ok memory) :
    layoutUpTo requests (before ++ [r]) low high = placeFloating memory r ∧
      layout requests low high = placeFloating memory r >>= after.foldlM placeFloating := by
  obtain ⟨hle, -⟩ := layout_division hbefore
  have hfloating : ∀ r' ∈ before ++ r :: after, r'.isFloating = true := by
    rw [← hsplit]
    exact fun r' hr' => (List.mem_filter.1 hr').2
  rw [layoutUpTo_eq hle fun r' hr' => hfloating r' (by simp [hr'])] at hbefore
  obtain ⟨bound, hbound, hbefore⟩ := bind_eq_ok.1 hbefore
  constructor
  · rw [layoutUpTo_eq hle fun r' hr' => hfloating r' (by grind), hbound]
    change (before ++ [r]).foldlM placeFloating bound = _
    rw [List.foldlM_append, hbefore]
    change [r].foldlM placeFloating memory = _
    rw [List.foldlM_cons]
    exact bind_pure _
  · rw [layout_eq hle, hbound, hsplit]
    change (before ++ r :: after).foldlM placeFloating bound = _
    rw [List.foldlM_append, hbefore]
    change (r :: after).foldlM placeFloating memory = _
    rw [List.foldlM_cons]

/-- Blocks stay where they are while floating requests are placed. -/
theorem mem_of_foldlM_placeFloating {low high : UInt32} {blocks es es' : List Extent}
    {requests : List Request} (h : Division low high blocks es)
    (hr : ∀ r ∈ requests, r.isFloating = true)
    (hp : requests.foldlM placeFloating es = .ok es') : ∀ b ∈ blocks, b ∈ es' := by
  obtain ⟨bs, -, hd⟩ := h.run (fun _ _ _ r hmem hd hp => placeFloating_step hd (hr r hmem) hp) hp
  intro b hb
  exact (List.mem_filter.1 (hd.placed.mem_iff.2 (List.mem_append_left _ hb))).1

/-- **First fit is the lowest fit.** Let the requests with a bound be placed, and the floating ones
before `r`. Then `r` is placed exactly if it asks for bytes and they fit somewhere. It is placed at the
lowest address where they fit in the window apart from all blocks placed so far, and stays there. The
layout fails at `r` for want of room exactly if `r` asks for bytes and they fit nowhere. -/
theorem layout_first_fit {requests before after : List Request} {r : Request} {low high : UInt32}
    {memory : List Extent} (hsplit : requests.filter (·.isFloating) = before ++ r :: after)
    (hbefore : layoutUpTo requests before low high = .ok memory) :
    ((∃ memory', layoutUpTo requests (before ++ [r]) low high = .ok memory') ↔
      r.size ≠ 0 ∧ ∃ a, r.FitsAt low high (allocated memory) a) ∧
    (∀ memory', layoutUpTo requests (before ++ [r]) low high = .ok memory' →
      ∃ block, r.HonouredBy block ∧
        IsLeast {a | r.FitsAt low high (allocated memory) a} block.lower.toNat ∧
        (allocated memory').Perm (block :: allocated memory) ∧
        ∀ es, layout requests low high = .ok es → block ∈ es) ∧
    ((∃ e, layoutUpTo requests (before ++ [r]) low high = .error e ∧
        layout requests low high = .error e ∧ e.kind = .noFit) ↔
      r.size ≠ 0 ∧ ∀ a, ¬r.FitsAt low high (allocated memory) a) := by
  obtain ⟨hnext, hall⟩ := layoutUpTo_next hsplit hbefore
  obtain ⟨hle, blocks, -, hd⟩ := layout_division hbefore
  have hd : Division low high (allocated memory) memory := hd.perm hd.placed.symm
  have hfloating : ∀ r' ∈ r :: after, r'.isFloating = true := by
    intro r' hr'
    refine (List.mem_filter.1 (?_ : r' ∈ requests.filter (·.isFloating))).2
    rw [hsplit]
    exact List.mem_append_right _ hr'
  rw [List.forall_mem_cons] at hfloating
  rw [hnext, hall]
  rcases hd.placeFloating_cases hfloating.1 with
    ⟨hsize, hp⟩ | ⟨hsize, hnowhere, hp⟩ | ⟨hsize, es', block, hp, hhon, hleast, hd'⟩
  · rw [hp]
    refine ⟨by simp [hsize], by simp, ?_⟩
    simp only [hsize, ne_eq, not_true_eq_false, false_and, iff_false]
    rintro ⟨e, he, -, hkind⟩
    obtain rfl := Except.error.inj he
    simp [PlacementError.kind] at hkind
  · rw [hp]
    refine ⟨by simp [hnowhere], by simp, iff_of_true ⟨_, rfl, rfl, rfl⟩ ⟨hsize, hnowhere⟩⟩
  · rw [hp]
    refine ⟨iff_of_true ⟨es', rfl⟩ ⟨hsize, _, hleast.1⟩, ?_, ?_⟩
    · rintro memory' hmemory'
      obtain rfl := Except.ok.inj hmemory'
      refine ⟨block, hhon, hleast, hd'.placed, fun es hes => ?_⟩
      exact mem_of_foldlM_placeFloating hd' hfloating.2 hes block (by simp)
    · refine iff_of_false (by simp) ?_
      rintro ⟨-, hnowhere⟩
      exact hnowhere _ hleast.1

/-- Requests of which one may lie in the gap that another was too large for, and one nowhere. -/
def crowdedRequests : List Request :=
  [.anywhere 8 (some 0), .startingAt 0x14 4 (some 1), .anywhere 4 (some 2), .anywhere 0x11 (some 3)]

/-- The second floating request goes below the first, into the gap before the block with a bound; then
there is no room for the third. -/
theorem layout_first_fit_crowded :
    (∃ block, (Request.anywhere 4 (some 2)).HonouredBy block ∧
      IsLeast {a | (Request.anywhere 4 (some 2)).FitsAt 0x10 0x2F
        [⟨0x14, 0x17, .allocated, some 1⟩, ⟨0x18, 0x1F, .allocated, some 0⟩] a}
        block.lower.toNat) ∧
    ∃ e, layout crowdedRequests 0x10 0x2F = .error e ∧ e.kind = .noFit := by
  have hfirst : layoutUpTo crowdedRequests [.anywhere 8 (some 0)] 0x10 0x2F =
      .ok [⟨0x10, 0x13, .free, none⟩, ⟨0x14, 0x17, .allocated, some 1⟩,
        ⟨0x18, 0x1F, .allocated, some 0⟩, ⟨0x20, 0x2F, .free, none⟩] := rfl
  have hsecond : layoutUpTo crowdedRequests [.anywhere 8 (some 0), .anywhere 4 (some 2)] 0x10 0x2F =
      .ok [⟨0x10, 0x13, .allocated, some 2⟩, ⟨0x14, 0x17, .allocated, some 1⟩,
        ⟨0x18, 0x1F, .allocated, some 0⟩, ⟨0x20, 0x2F, .free, none⟩] := rfl
  constructor
  · obtain ⟨block, hhon, hleast, -⟩ := (layout_first_fit rfl hfirst).2.1 _ hsecond
    exact ⟨block, hhon, hleast⟩
  · have hnowhere : ∀ a, ¬(Request.anywhere 0x11 (some 3)).FitsAt 0x10 0x2F
        [⟨0x10, 0x13, .allocated, some 2⟩, ⟨0x14, 0x17, .allocated, some 1⟩,
          ⟨0x18, 0x1F, .allocated, some 0⟩] a := by
      rintro a ⟨hlow, hhigh, hapart⟩
      have hlast : 0x1F < a ∨ a + 0x11 ≤ 0x18 := hapart ⟨0x18, 0x1F, .allocated, some 0⟩ (by simp)
      have hlow : 0x10 ≤ a := hlow
      have hhigh : a + 0x11 ≤ 0x30 := hhigh
      omega
    obtain ⟨e, -, he, hkind⟩ := (layout_first_fit rfl hsecond).2.2.2 ⟨by decide, hnowhere⟩
    exact ⟨e, he, hkind⟩

end Placement

end MipsAssembler
