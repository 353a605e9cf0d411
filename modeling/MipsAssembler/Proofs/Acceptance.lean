import MipsAssembler.Proofs.FirstFit

/-!
# Requests that can be met are met

A request with a given bound asks for one span of addresses. If that span lies in the window and has
no address in common with the blocks that are placed already, the request is placed
(`exists_placeBound`): no two gaps are neighbours, so that the span lies in a single one of them
(`Division.exists_free`). Hence requests whose spans lie in the window, apart from one another, are
all placed, in any order (`exists_layout`).
-/

namespace MipsAssembler

open Outcome Tiling

/-! ## Spans -/

theorem Request.isFloating_of_span {r : Request} {lower upper : UInt32}
    (h : r.span = .ok (lower, upper)) : r.isFloating = false := by
  unfold Request.span at h
  unfold Request.isFloating
  split at h
  · cases h
  split at h <;> simp_all

theorem Request.HonouredBy.bounds_of_span {r : Request} {block : Extent} {lower upper : UInt32}
    (hhon : r.HonouredBy block) (h : r.span = .ok (lower, upper)) :
    block.lower = lower ∧ block.upper = upper := by
  obtain ⟨hsize, hlower, hupper⟩ := Request.span_spec h
  have hsize' := hhon.size
  have hbound := Request.isFloating_of_span h
  cases hl : r.lower with
  | some a =>
    obtain rfl := hlower a hl
    obtain rfl := hhon.lower _ hl
    exact ⟨rfl, UInt32.toNat_inj.1 (by omega)⟩
  | none =>
    cases hu : r.upper with
    | some a =>
      obtain rfl := hupper a hu
      obtain rfl := hhon.upper _ hu
      exact ⟨UInt32.toNat_inj.1 (by omega), rfl⟩
    | none => simp [Request.isFloating, hl, hu] at hbound

theorem Request.le_of_span {r : Request} {lower upper : UInt32} (h : r.span = .ok (lower, upper)) :
    lower ≤ upper := by
  obtain ⟨hsize, -, -⟩ := Request.span_spec h
  have hne : r.size ≠ 0 := by
    intro h0
    simp [Request.span, h0] at h
  have hpos : 0 < r.size.toNat := Nat.pos_of_ne_zero fun h0 => hne (UInt32.toNat_inj.1 h0)
  rw [UInt32.le_iff_toNat_le]
  omega

/-- The spans of two requests have no address in common. -/
def Request.SpansApart (r r' : Request) : Prop :=
  ∀ lower upper lower' upper', r.span = .ok (lower, upper) → r'.span = .ok (lower', upper') →
    upper < lower' ∨ upper' < lower

/-- The span of a request lies in a window. -/
def Request.FitsIn (low high : UInt32) (r : Request) : Prop :=
  ∃ lower upper, r.span = .ok (lower, upper) ∧ low ≤ lower ∧ upper ≤ high

namespace Placement

/-! ## One request -/

/-- In a covering without neighbouring gaps, addresses that follow one another and are not in use lie
in a single gap. -/
theorem exists_free_of_covers {a b : Nat} {es : List Extent} {lower upper : UInt32}
    (hc : Covers a es b) (hmax : es.IsChain NotBothFree) (hle : lower ≤ upper)
    (hlow : a ≤ lower.toNat) (hhigh : upper.toNat < b)
    (hunused : ∀ e ∈ es, e.status = .free ∨ e.upper < lower ∨ upper < e.lower) :
    ∃ e ∈ es, e.isFree = true ∧ e.contains lower upper = true := by
  simp only [UInt32.le_iff_toNat_le] at hle
  induction es generalizing a with
  | nil =>
    have hab : a = b := hc
    omega
  | cons e es ih =>
    obtain ⟨rfl, ho, hes⟩ := hc
    rw [List.forall_mem_cons] at hunused
    obtain ⟨hfirst, hmax'⟩ := List.isChain_cons.1 hmax
    rcases Nat.lt_or_ge e.upper.toNat lower.toNat with hlt | hge
    · obtain ⟨f, hf, hf'⟩ := ih hes hmax' hlt hunused.2
      exact ⟨f, by simp [hf], hf'⟩
    -- the first address lies in `e`, which is free; then so do all of them
    simp only [UInt32.lt_iff_toNat_lt] at hunused
    have hfree : e.status = .free := by
      rcases hunused.1 with hfree | hbelow | habove
      · exact hfree
      · omega
      · omega
    refine ⟨e, by simp, by simp [Extent.isFree, hfree], ?_⟩
    simp only [Extent.contains, Bool.and_eq_true, decide_eq_true_eq, UInt32.le_iff_toNat_le]
    refine ⟨hlow, Nat.not_lt.1 fun hcut => ?_⟩
    cases es with
    | nil =>
      have hend : e.upper.toNat + 1 = b := hes
      omega
    | cons next es =>
      obtain ⟨hnext, hnext', -⟩ := hes
      rw [UInt32.le_iff_toNat_le] at hnext'
      rcases hunused.2 next (by simp) with hfree' | hbelow | habove
      · exact hfirst next (by simp) ⟨hfree, hfree'⟩
      · omega
      · omega

theorem Division.exists_free {low high lower upper : UInt32} {blocks es : List Extent}
    (h : Division low high blocks es) (hle : lower ≤ upper) (hlow : low ≤ lower)
    (hhigh : upper ≤ high) (hapart : ∀ b ∈ blocks, b.upper < lower ∨ upper < b.lower) :
    ∃ e ∈ es, e.isFree = true ∧ e.contains lower upper = true := by
  rw [UInt32.le_iff_toNat_le] at hlow hhigh
  refine exists_free_of_covers h.covers h.maximal hle hlow (Nat.lt_succ_of_le hhigh) fun e he => ?_
  by_cases halloc : e.status = .allocated
  · refine .inr (hapart e (h.placed.mem_iff.1 ?_))
    exact List.mem_filter.2 ⟨he, by simp [halloc]⟩
  · exact .inl (h.unused e he halloc).1

theorem exists_insert {e block : Extent} (hfree : e.isFree = true) (hord : block.lower ≤ block.upper)
    (hin : e.contains block.lower block.upper = true) : ∃ parts, e.insert block = .ok parts := by
  unfold Extent.insert
  rw [if_neg (by simp [hfree]), if_neg (UInt32.not_lt.2 hord), if_neg (by simp [hin])]
  exact ⟨_, rfl⟩

/-- If a block is chosen for some extent, and blocks that are chosen can be put in, one is. -/
theorem exists_insertFirst {choose : Extent → Option Extent} {es : List Extent}
    (hput : ∀ e ∈ es, ∀ block, choose e = some block → ∃ parts, e.insert block = .ok parts)
    (h : ∃ e ∈ es, (choose e).isSome) : ∃ es', insertFirst choose es = .ok (some es') := by
  induction es with
  | nil => simp at h
  | cons e es ih =>
    rw [List.forall_mem_cons] at hput
    rw [insertFirst]
    cases hc : choose e with
    | some block =>
      obtain ⟨parts, hparts⟩ := hput.1 block hc
      exact ⟨parts ++ es, by simp [hparts, Except.map]⟩
    | none =>
      obtain ⟨es', hes'⟩ := ih hput.2 (by simpa [hc] using h)
      exact ⟨e :: es', by simp [hes', Except.map]⟩

theorem exists_placeBound {low high lower upper : UInt32} {blocks es : List Extent} {r : Request}
    (h : Division low high blocks es) (hspan : r.span = .ok (lower, upper)) (hlow : low ≤ lower)
    (hhigh : upper ≤ high) (hapart : ∀ b ∈ blocks, b.upper < lower ∨ upper < b.lower) :
    ∃ es', placeBound es r = .ok es' := by
  have hle := Request.le_of_span hspan
  obtain ⟨e, he, hfree, hin⟩ := h.exists_free hle hlow hhigh hapart
  let choose (e : Extent) : Option Extent :=
    if e.isFree && e.contains lower upper then
      some { lower, upper, status := .allocated, owner := r.owner }
    else none
  have hput : ∀ e ∈ es, ∀ block, choose e = some block → ∃ parts, e.insert block = .ok parts := by
    intro f _ block hf
    simp only [choose, Option.ite_none_right_eq_some, Bool.and_eq_true, Option.some.injEq] at hf
    obtain ⟨⟨hfree', hin'⟩, rfl⟩ := hf
    exact exists_insert hfree' hle hin'
  obtain ⟨es', hes'⟩ := exists_insertFirst hput ⟨e, he, by simp [choose, hfree, hin]⟩
  exact ⟨es', bind_eq_ok.2 ⟨_, hspan, bind_eq_ok.2 ⟨_, hes', rfl⟩⟩⟩

/-! ## All requests -/

/-- Requests whose spans lie in the window, apart from one another and from the blocks that are
placed already, are all placed. -/
theorem Division.exists_run {low high : UInt32} {blocks es : List Extent} {requests : List Request}
    (h : Division low high blocks es) (hfits : ∀ r ∈ requests, r.FitsIn low high)
    (hblocks : ∀ r ∈ requests, ∀ lower upper, r.span = .ok (lower, upper) →
      ∀ b ∈ blocks, b.upper < lower ∨ upper < b.lower)
    (hapart : requests.Pairwise Request.SpansApart) :
    ∃ es' blocks', requests.foldlM placeBound es = .ok es' ∧ Division low high blocks' es' := by
  induction requests generalizing blocks es with
  | nil => exact ⟨es, blocks, rfl, h⟩
  | cons r requests ih =>
    rw [List.forall_mem_cons] at hfits hblocks
    obtain ⟨hfirst, hapart⟩ := List.pairwise_cons.1 hapart
    obtain ⟨lower, upper, hspan, hlow, hhigh⟩ := hfits.1
    obtain ⟨es₁, hes₁⟩ :=
      exists_placeBound h hspan hlow hhigh (hblocks.1 lower upper hspan)
    obtain ⟨block, hhon, hd⟩ := placeBound_step h hes₁
    obtain ⟨hl, hu⟩ := hhon.bounds_of_span hspan
    have hblocks' : ∀ r' ∈ requests, ∀ lower' upper', r'.span = .ok (lower', upper') →
        ∀ b ∈ block :: blocks, b.upper < lower' ∨ upper' < b.lower := by
      intro r' hr' lower' upper' hspan' b hb
      rcases List.mem_cons.1 hb with rfl | hb
      · rw [hl, hu]
        exact hfirst r' hr' lower upper lower' upper' hspan hspan'
      · exact hblocks.2 r' hr' lower' upper' hspan' b hb
    obtain ⟨es', blocks', hrun, hd'⟩ := ih hd hfits.2 hblocks' hapart
    refine ⟨es', blocks', ?_, hd'⟩
    rw [List.foldlM_cons]
    exact bind_eq_ok.2 ⟨es₁, hes₁, hrun⟩

/-- A window has a layout for requests whose spans lie in it, apart from one another. -/
theorem exists_layout {low high : UInt32} {requests : List Request} (hle : low ≤ high)
    (hfits : ∀ r ∈ requests, r.FitsIn low high) (hapart : requests.Pairwise Request.SpansApart) :
    ∃ es, layout requests low high = .ok es := by
  have hbound : ∀ r ∈ requests, r.isFloating = false := by
    intro r hr
    obtain ⟨lower, upper, hspan, -⟩ := hfits r hr
    exact Request.isFloating_of_span hspan
  have hall : requests.filter (!·.isFloating) = requests :=
    List.filter_eq_self.2 fun r hr => by simp [hbound r hr]
  have hnone : requests.filter (·.isFloating) = [] :=
    List.filter_eq_nil_iff.2 fun r hr => by simp [hbound r hr]
  obtain ⟨es, blocks, hrun, hd⟩ := (division_window hle).exists_run hfits (by simp) hapart
  refine ⟨es, ?_⟩
  rw [layout, if_neg (UInt32.not_lt.2 hle), hall, hnone]
  exact bind_eq_ok.2 ⟨es, hrun, bind_eq_ok.2 ⟨es, rfl,
    bind_eq_ok.2 ⟨(), check_eq_ok.2 (isTiling_of_covers hle hd.covers), rfl⟩⟩⟩

end Placement

end MipsAssembler
