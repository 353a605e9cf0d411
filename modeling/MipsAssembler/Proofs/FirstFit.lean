import Mathlib.Algebra.Group.Nat.Defs
import Mathlib.Data.List.Perm.Basic
import MipsAssembler.Placement.FirstFit
import MipsAssembler.Proofs.Outcome
import MipsAssembler.Proofs.Tiling

/-!
# The division of a window

`layout` divides a window exactly and honours every request. The invariant is `Division`: the list
of extents covers the window, whatever is not allocated is free and has no owner, no two gaps are
neighbours, and the allocated extents are the blocks that were put in so far, in some order.

* One step puts one block into one free extent (`Filled`), and that keeps the invariant
  (`Division.filled`).
* A request that is placed gets a block that honours it, whether it has a bound (`placeBound_inv`)
  or not (`placeFloating_inv`).
* A run places one block for each request (`Division.run`), and `layout` is two runs, of which
  `layout_partition` is the outcome.
-/

namespace MipsAssembler

open Outcome Tiling

namespace Tiling

/-- The extents of a list that are in use. -/
def allocated (es : List Extent) : List Extent := es.filter fun e => e.status = .allocated

/-- Not both of two neighbours are free. -/
def NotBothFree (e next : Extent) : Prop := ¬(e.status = .free ∧ next.status = .free)

theorem allocated_append (es fs : List Extent) :
    allocated (es ++ fs) = allocated es ++ allocated fs := List.filter_append ..

theorem allocated_cons_of_free {e : Extent} {es : List Extent} (h : e.status = .free) :
    allocated (e :: es) = allocated es := List.filter_cons_of_neg (by simp [h])

theorem allocated_cons_of_allocated {e : Extent} {es : List Extent} (h : e.status = .allocated) :
    allocated (e :: es) = e :: allocated es := List.filter_cons_of_pos (by simp [h])

theorem Gap.allocated_eq_nil {a b : Nat} {es : List Extent} (h : Gap a es b) :
    allocated es = [] := by
  rw [allocated, List.filter_eq_nil_iff]
  intro e he
  simp [(h.unused e he).1]

/-- A gap can stand in the place of a free extent at the end of a list. -/
theorem Gap.isChain_append {a b : Nat} {es before : List Extent} {e : Extent}
    (hg : Gap a before b) (h : (es ++ [e]).IsChain NotBothFree) (he : e.status = .free) :
    (es ++ before).IsChain NotBothFree := by
  obtain ⟨hes, -, hlast⟩ := List.isChain_append.1 h
  match before, hg with
  | [], _ => simpa using hes
  | [f], _ =>
    refine List.isChain_append.2 ⟨hes, List.isChain_singleton f, ?_⟩
    rintro x hx y - ⟨hxf, -⟩
    exact hlast x hx e (by simp) ⟨hxf, he⟩
  | _ :: _ :: _, hg => exact absurd hg.short (by simp)

/-- A gap can stand in the place of a free extent at the start of a list. -/
theorem Gap.isChain_cons {a b : Nat} {es after : List Extent} {e : Extent}
    (hg : Gap a after b) (h : (e :: es).IsChain NotBothFree) (he : e.status = .free) :
    (after ++ es).IsChain NotBothFree := by
  obtain ⟨hhead, hes⟩ := List.isChain_cons.1 h
  match after, hg with
  | [], _ => exact hes
  | [f], _ =>
    refine List.isChain_cons.2 ⟨?_, hes⟩
    rintro y hy ⟨-, hyf⟩
    exact hhead y hy ⟨he, hyf⟩
  | _ :: _ :: _, hg => exact absurd hg.short (by simp)

end Tiling

namespace Placement

/-! ## The invariant -/

/-- The extents divide the window from `low` to `high` into the given blocks and the gaps between
them. -/
structure Division (low high : UInt32) (blocks es : List Extent) : Prop where
  covers : Covers low.toNat es (high.toNat + 1)
  unused : ∀ e ∈ es, e.status ≠ .allocated → e.status = .free ∧ e.owner = none
  maximal : es.IsChain NotBothFree
  placed : (allocated es).Perm blocks

/-- An empty window is one gap. -/
theorem division_window {low high : UInt32} (h : low ≤ high) :
    Division low high [] [{ lower := low, upper := high }] where
  covers := covers_singleton.2 ⟨rfl, h, rfl⟩
  unused := by simp
  maximal := List.isChain_singleton _
  placed := by simp [allocated]

/-- Putting a block into a free extent keeps the window divided. -/
theorem Division.insert {low high : UInt32} {blocks pre post parts : List Extent}
    {e block : Extent} (h : Division low high blocks (pre ++ e :: post))
    (hi : e.insert block = .ok parts) (hb : block.status = .allocated) :
    Division low high (block :: blocks) (pre ++ parts ++ post) := by
  obtain ⟨hfree, hord, before, after, rfl, hbefore, hafter⟩ := Extent.insert_spec hi
  have hlist : pre ++ (before ++ block :: after) ++ post =
      (pre ++ before) ++ block :: (after ++ post) := by simp
  rw [hlist]
  refine ⟨?_, ?_, ?_, ?_⟩
  · obtain ⟨a, hpre, ha, -, hpost⟩ := covers_append.1 h.covers
    rw [covers_append]
    refine ⟨block.lower.toNat, covers_append.2 ⟨a, hpre, ha ▸ hbefore.covers⟩, rfl, hord, ?_⟩
    exact covers_append.2 ⟨_, hafter.covers, hpost⟩
  · intro f hf hstatus
    simp only [List.mem_append, List.mem_cons] at hf
    rcases hf with (hf | hf) | rfl | hf | hf
    · exact h.unused f (by simp [hf]) hstatus
    · exact hbefore.unused f hf
    · exact absurd hb hstatus
    · exact hafter.unused f hf
    · exact h.unused f (by simp [hf]) hstatus
  · -- the block is in use, so that the lists before and after it do not see each other
    obtain ⟨hl, hr⟩ := List.isChain_split.1 h.maximal
    refine List.isChain_append.2 ⟨hbefore.isChain_append hl hfree,
      List.isChain_cons.2 ⟨?_, hafter.isChain_cons hr hfree⟩, ?_⟩
    · rintro y - ⟨hbf, -⟩
      simp [hb] at hbf
    · rintro x - y hy ⟨-, hyf⟩
      obtain rfl : block = y := by simpa using hy
      simp [hb] at hyf
  · have hplaced := h.placed
    rw [allocated_append, allocated_cons_of_free hfree] at hplaced
    rw [allocated_append, allocated_append, hbefore.allocated_eq_nil, List.append_nil,
      allocated_cons_of_allocated hb, allocated_append, hafter.allocated_eq_nil, List.nil_append]
    exact List.perm_middle.trans (hplaced.cons block)

/-! ## One request -/

/-- A block goes into the first extent that is chosen for it, and nothing else changes. -/
theorem insertFirst_inv {choose : Extent → Option Extent} {es es' : List Extent}
    (h : insertFirst choose es = .ok (some es')) :
    ∃ pre e post block parts, es = pre ++ e :: post ∧ (∀ f ∈ pre, choose f = none) ∧
      choose e = some block ∧ e.insert block = .ok parts ∧ es' = pre ++ parts ++ post := by
  induction es generalizing es' with
  | nil => simp [insertFirst] at h
  | cons e rest ih =>
    rw [insertFirst] at h
    cases hc : choose e with
    | some block =>
      simp only [hc] at h
      obtain ⟨parts, hi, heq⟩ := map_eq_ok.1 h
      exact ⟨[], e, rest, block, parts, rfl, by simp, hc, hi, by simpa using heq.symm⟩
    | none =>
      simp only [hc] at h
      obtain ⟨found, hf, heq⟩ := map_eq_ok.1 h
      obtain ⟨rest', rfl, rfl⟩ := Option.map_eq_some_iff.1 heq
      obtain ⟨pre, f, post, block, parts, rfl, hpre, hcf, hi, rfl⟩ := ih hf
      exact ⟨e :: pre, f, post, block, parts, rfl, by simpa [hc] using hpre, hcf, hi, rfl⟩

end Placement

/-- The block is what the request asks for: it is in use by the owner of the request, has as many
addresses as asked, and has the bounds that are given. -/
structure Request.HonouredBy (r : Request) (block : Extent) : Prop where
  allocated : block.status = .allocated
  owner : block.owner = r.owner
  size : block.upper.toNat + 1 = block.lower.toNat + r.size.toNat
  lower : ∀ a, r.lower = some a → block.lower = a
  upper : ∀ a, r.upper = some a → block.upper = a

/-- The last of `n` addresses from `a` on, if the address space has them. -/
theorem toNat_add_sub_one {a n : UInt32} (hn : 0 < n.toNat) (h : a.toNat + n.toNat ≤ 2 ^ 32) :
    (a + n - 1).toNat + 1 = a.toNat + n.toNat := by
  rw [UInt32.toNat_sub, UInt32.toNat_add, show (1 : UInt32).toNat = 1 from rfl]
  omega

/-- The first of `n` addresses up to `a`, if the address space has them. -/
theorem toNat_add_one_sub {a n : UInt32} (hn : 0 < n.toNat) (h : n.toNat ≤ a.toNat + 1) :
    (a + 1 - n).toNat + n.toNat = a.toNat + 1 := by
  have := a.toNat_lt
  have := n.toNat_lt
  rw [UInt32.toNat_sub, UInt32.toNat_add, show (1 : UInt32).toNat = 1 from rfl]
  omega

/-- The span of a request has the bounds that are given and the size that is asked for. -/
theorem Request.span_spec {r : Request} {lower upper : UInt32} (h : r.span = .ok (lower, upper)) :
    upper.toNat + 1 = lower.toNat + r.size.toNat ∧ (∀ a, r.lower = some a → lower = a) ∧
      ∀ a, r.upper = some a → upper = a := by
  have hsz : r.size ≠ 0 := by
    intro h0
    simp [Request.span, h0] at h
  have hpos : 0 < r.size.toNat := Nat.pos_of_ne_zero fun h0 => hsz (UInt32.toNat_inj.1 h0)
  simp only [Request.span, if_neg hsz] at h
  cases hl : r.lower with
  | some l =>
    have hlt := l.toNat_lt
    cases hu : r.upper with
    | some u =>
      simp only [hl, hu] at h
      split at h
      · simp at h
      split at h
      · simp at h
      rename_i hord hsize
      obtain ⟨rfl, rfl⟩ : l = lower ∧ u = upper := by simpa using h
      rw [UInt32.lt_iff_toNat_lt] at hord
      exact ⟨by omega, by simp, by simp⟩
    | none =>
      simp only [hl, hu] at h
      split at h
      · simp at h
      rename_i hend
      obtain ⟨rfl, rfl⟩ : l = lower ∧ l + r.size - 1 = upper := by simpa using h
      exact ⟨toNat_add_sub_one hpos (by omega), by simp, by simp⟩
  | none =>
    cases hu : r.upper with
    | some u =>
      have hlt := u.toNat_lt
      simp only [hl, hu] at h
      split at h
      · simp at h
      rename_i hend
      obtain ⟨rfl, rfl⟩ : u + 1 - r.size = lower ∧ u = upper := by simpa using h
      have hpred : (r.size - 1).toNat = r.size.toNat - 1 :=
        UInt32.toNat_sub_of_le _ _ (UInt32.le_iff_toNat_le.2 hpos)
      rw [UInt32.lt_iff_toNat_lt, hpred] at hend
      exact ⟨(toNat_add_one_sub hpos (by omega)).symm, by simp, by simp⟩
    | none => simp [hl, hu] at h

namespace Placement

/-- The second list of extents is the first with a block put into the extent `e`. -/
def Filled (e block : Extent) (es es' : List Extent) : Prop :=
  ∃ pre post parts, es = pre ++ e :: post ∧ e.insert block = .ok parts ∧
    es' = pre ++ parts ++ post

theorem insertFirst_filled {choose : Extent → Option Extent} {es es' : List Extent}
    (h : insertFirst choose es = .ok (some es')) :
    ∃ e ∈ es, ∃ block, choose e = some block ∧ Filled e block es es' := by
  obtain ⟨pre, e, post, block, parts, rfl, -, hce, hins, rfl⟩ := insertFirst_inv h
  exact ⟨e, by simp, block, hce, pre, post, parts, rfl, hins, rfl⟩

theorem Division.filled {low high : UInt32} {blocks es es' : List Extent} {e block : Extent}
    (h : Division low high blocks es) (hf : Filled e block es es')
    (hb : block.status = .allocated) : Division low high (block :: blocks) es' := by
  obtain ⟨pre, post, parts, rfl, hins, rfl⟩ := hf
  exact h.insert hins hb

/-- A request with a given bound is placed by putting in a block that honours it. -/
theorem placeBound_inv {es es' : List Extent} {r : Request} (hp : placeBound es r = .ok es') :
    ∃ e block, Filled e block es es' ∧ r.HonouredBy block := by
  obtain ⟨⟨lower, upper⟩, hs, hp⟩ := bind_eq_ok.1 hp
  obtain ⟨found, hf, hp⟩ := bind_eq_ok.1 hp
  cases found with
  | none => simp at hp
  | some placed =>
    obtain rfl := pure_eq_ok.1 hp
    obtain ⟨e, -, block, hce, hfilled⟩ := insertFirst_filled hf
    obtain ⟨hsize, hl, hu⟩ := Request.span_spec hs
    obtain rfl : { lower, upper, status := .allocated, owner := r.owner } = block := by grind
    exact ⟨e, _, hfilled, ⟨rfl, rfl, hsize, hl, hu⟩⟩

/-- A request with a given bound that is placed gets a block that honours it. -/
theorem placeBound_step {low high : UInt32} {blocks es es' : List Extent} {r : Request}
    (h : Division low high blocks es) (hp : placeBound es r = .ok es') :
    ∃ block, r.HonouredBy block ∧ Division low high (block :: blocks) es' := by
  obtain ⟨e, block, hfilled, hhon⟩ := placeBound_inv hp
  exact ⟨block, hhon, h.filled hfilled hhon.allocated⟩

theorem toNat_extentSize {e : Extent} (h : e.lower ≤ e.upper) :
    e.size.toNat + e.lower.toNat = e.upper.toNat + 1 := by
  have := e.upper.toNat_lt
  rw [UInt32.le_iff_toNat_le] at h
  rw [Extent.size, UInt64.toNat_add, UInt64.toNat_sub, UInt32.toNat_toUInt64,
    UInt32.toNat_toUInt64, show (1 : UInt64).toNat = 1 from rfl]
  omega

/-- A request that may lie anywhere is placed by putting in a block that honours it, at the low end of
an extent. -/
theorem placeFloating_inv {es es' : List Extent} {r : Request} (hord : ∀ e ∈ es, e.lower ≤ e.upper)
    (hr : r.isFloating = true) (hp : placeFloating es r = .ok es') :
    ∃ e ∈ es, ∃ block, Filled e block es es' ∧ r.HonouredBy block ∧ block.lower = e.lower := by
  by_cases hsz : r.size = 0
  case pos => simp [placeFloating, hsz] at hp
  have hpos : 0 < r.size.toNat := Nat.pos_of_ne_zero fun h0 => hsz (UInt32.toNat_inj.1 h0)
  simp only [placeFloating, if_neg hsz] at hp
  obtain ⟨found, hf, hp⟩ := bind_eq_ok.1 hp
  cases found with
  | none => simp at hp
  | some placed =>
    obtain rfl := pure_eq_ok.1 hp
    obtain ⟨e, he, block, hce, hfilled⟩ := insertFirst_filled hf
    obtain ⟨hfit, rfl⟩ : r.size.toUInt64 ≤ e.size ∧
        { lower := e.lower, upper := e.lower + r.size - 1, status := .allocated,
          owner := r.owner } = block := by grind
    have hlt := e.upper.toNat_lt
    have hsize := toNat_extentSize (hord e he)
    rw [UInt64.le_iff_toNat_le, UInt32.toNat_toUInt64] at hfit
    simp only [Request.isFloating, Bool.and_eq_true, Option.isNone_iff_eq_none] at hr
    refine ⟨e, he, _, hfilled, ⟨rfl, rfl, toNat_add_sub_one hpos (by omega), ?_, ?_⟩, rfl⟩
    · simp [hr.1]
    · simp [hr.2]

/-- A request that may lie anywhere and is placed gets a block that honours it. -/
theorem placeFloating_step {low high : UInt32} {blocks es es' : List Extent} {r : Request}
    (h : Division low high blocks es) (hr : r.isFloating = true)
    (hp : placeFloating es r = .ok es') :
    ∃ block, r.HonouredBy block ∧ Division low high (block :: blocks) es' := by
  have hord : ∀ e ∈ es, e.lower ≤ e.upper := fun e he => (h.covers.bounds_of_mem he).2.1
  obtain ⟨e, -, block, hfilled, hhon, -⟩ := placeFloating_inv hord hr hp
  exact ⟨block, hhon, h.filled hfilled hhon.allocated⟩

/-! ## All requests -/

theorem Division.perm {low high : UInt32} {blocks blocks' es : List Extent}
    (h : Division low high blocks es) (hp : blocks.Perm blocks') : Division low high blocks' es :=
  ⟨h.covers, h.unused, h.maximal, h.placed.trans hp⟩

/-- Requests that are placed one after the other get a block each, in their order. -/
theorem Division.run {low high : UInt32} {blocks es es' : List Extent} {requests : List Request}
    {place : List Extent → Request → Except PlacementError (List Extent)}
    (step : ∀ blocks es es' r, r ∈ requests → Division low high blocks es → place es r = .ok es' →
      ∃ block, r.HonouredBy block ∧ Division low high (block :: blocks) es')
    (h : Division low high blocks es) (hp : requests.foldlM place es = .ok es') :
    ∃ bs, List.Forall₂ Request.HonouredBy requests bs ∧ Division low high (blocks ++ bs) es' := by
  refine foldlM_run (fun done es => ∃ bs, List.Forall₂ Request.HonouredBy done bs ∧
    Division low high (blocks ++ bs) es) ?_ hp ⟨[], .nil, by simpa using h⟩
  rintro done s r s' hr ⟨bs, hbs, hd⟩ hs
  obtain ⟨block, hblock, hd'⟩ := step _ s s' r hr hd hs
  refine ⟨bs ++ [block], List.rel_append hbs (.cons hblock .nil), hd'.perm ?_⟩
  rw [← List.append_assoc]
  exact (List.perm_append_singleton block _).symm

/-- What a layout is: a division of the window into one block for each request and gaps. -/
theorem layout_division {requests : List Request} {low high : UInt32} {es : List Extent}
    (h : layout requests low high = .ok es) :
    low ≤ high ∧ ∃ blocks, List.Forall₂ Request.HonouredBy requests blocks ∧
      Division low high blocks es := by
  by_cases hw : high < low
  case pos => simp [layout, hw] at h
  have hle : low ≤ high := UInt32.not_lt.1 hw
  simp only [layout, if_neg hw] at h
  obtain ⟨bound, hb, h⟩ := bind_eq_ok.1 h
  obtain ⟨memory, hf, h⟩ := bind_eq_ok.1 h
  obtain ⟨_, -, h⟩ := bind_eq_ok.1 h
  obtain rfl := pure_eq_ok.1 h
  obtain ⟨bs, hbs, hd⟩ := (division_window hle).run
    (fun _ _ _ _ _ hd hp => placeBound_step hd hp) hb
  obtain ⟨fs, hfs, hd⟩ := hd.run
    (fun _ _ _ r hr hd hp => placeFloating_step hd (by simpa using (List.mem_filter.1 hr).2) hp) hf
  rw [List.nil_append] at hd
  -- the requests were placed in another order than theirs
  have horder : requests.Perm
      (requests.filter (!·.isFloating) ++ requests.filter (·.isFloating)) :=
    ((List.filter_append_perm _ requests).symm.trans List.perm_append_comm)
  obtain ⟨blocks, hblocks, hperm⟩ := List.perm_comp_forall₂ horder (List.rel_append hbs hfs)
  exact ⟨hle, blocks, hblocks, hd.perm hperm.symm⟩

/-- **A layout divides its window exactly and honours every request.** The extents tile the window;
the allocated ones correspond one to one to the requests and are what these ask for; all others are
free and have no owner; and no two neighbours are free. -/
theorem layout_partition {requests : List Request} {low high : UInt32} {es : List Extent}
    (h : layout requests low high = .ok es) :
    IsTiling es low high ∧
      (∃ blocks, List.Forall₂ Request.HonouredBy requests blocks ∧ blocks.Perm (allocated es)) ∧
      (∀ e ∈ es, e.status ≠ .allocated → e.status = .free ∧ e.owner = none) ∧
      es.IsChain NotBothFree := by
  obtain ⟨hle, blocks, hblocks, hd⟩ := layout_division h
  refine ⟨isTiling_iff.2 ⟨?_, hd.covers⟩, ⟨blocks, hblocks, hd.placed.symm⟩, hd.unused, hd.maximal⟩
  rintro rfl
  have hempty : low.toNat = high.toNat + 1 := hd.covers
  rw [UInt32.le_iff_toNat_le] at hle
  omega

/-- A layout of the whole address space, with a request of each shape, up to the last address. -/
theorem layout_partition_whole_space :
    ∃ es, layout [.anywhere 4 (some 0), .fixed 0x10 0x17 (some 1), .startingAt 0x20 8 (some 2),
        .endingAt 0xFFFFFFFF 0x10 (some 3)] 0 0xFFFFFFFF = .ok es ∧
      IsTiling es 0 0xFFFFFFFF ∧ es.IsChain NotBothFree ∧
      allocated es = [⟨0, 3, .allocated, some 0⟩, ⟨0x10, 0x17, .allocated, some 1⟩,
        ⟨0x20, 0x27, .allocated, some 2⟩, ⟨0xFFFFFFF0, 0xFFFFFFFF, .allocated, some 3⟩] := by
  have h : layout [.anywhere 4 (some 0), .fixed 0x10 0x17 (some 1), .startingAt 0x20 8 (some 2),
      .endingAt 0xFFFFFFFF 0x10 (some 3)] 0 0xFFFFFFFF =
      .ok [⟨0, 3, .allocated, some 0⟩, ⟨4, 0xF, .free, none⟩, ⟨0x10, 0x17, .allocated, some 1⟩,
        ⟨0x18, 0x1F, .free, none⟩, ⟨0x20, 0x27, .allocated, some 2⟩,
        ⟨0x28, 0xFFFFFFEF, .free, none⟩, ⟨0xFFFFFFF0, 0xFFFFFFFF, .allocated, some 3⟩] := rfl
  obtain ⟨htiles, -, -, hmaximal⟩ := layout_partition h
  exact ⟨_, h, htiles, hmaximal, rfl⟩

end Placement

end MipsAssembler
