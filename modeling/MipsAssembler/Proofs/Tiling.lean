import Mathlib.Data.List.Chain
import MipsAssembler.Placement.Tiling

/-!
# Exact coverings

A list of extents covers a stretch of addresses exactly if each extent has its bounds in order and
begins where the one before it ends. `Covers` says so by recursion, with addresses as natural
numbers and the end left out, so that coverings can be put together and taken apart
(`covers_append`); `IsTiling` says the same of a window in terms of neighbours, and the two agree
(`isTiling_iff`). It is what the check of a list decides (`check_eq_ok`).

The operation of interest is `Extent.insert`: it replaces a free extent by a block with at most one
gap on either side (`Extent.insert_spec`).
-/

namespace MipsAssembler

namespace Tiling

/-- The extents cover the addresses from `a` on and below `b`, in order and without holes. -/
def Covers : Nat → List Extent → Nat → Prop
  | a, [], b => a = b
  | a, e :: rest, b => e.lower.toNat = a ∧ e.lower ≤ e.upper ∧ Covers (e.upper.toNat + 1) rest b

/-- The extents tile the window from `low` to `high`: they begin at its lower and end at its upper
bound, have their own bounds in order, and each follows directly on the one before. -/
structure IsTiling (es : List Extent) (low high : UInt32) : Prop where
  first : es.head?.map (·.lower) = some low
  last : es.getLast?.map (·.upper) = some high
  ordered : ∀ e ∈ es, e.lower ≤ e.upper
  contiguous : es.IsChain fun e next => e.upper.toNat + 1 = next.lower.toNat

theorem covers_append {a b : Nat} {es fs : List Extent} :
    Covers a (es ++ fs) b ↔ ∃ c, Covers a es c ∧ Covers c fs b := by
  induction es generalizing a with
  | nil => simp [Covers]
  | cons e es ih => simp [Covers, ih, and_assoc]

theorem covers_singleton {a b : Nat} {e : Extent} :
    Covers a [e] b ↔ e.lower.toNat = a ∧ e.lower ≤ e.upper ∧ e.upper.toNat + 1 = b :=
  Iff.rfl

theorem Covers.le {a b : Nat} {es : List Extent} (h : Covers a es b) : a ≤ b := by
  induction es generalizing a with
  | nil => exact Nat.le_of_eq h
  | cons e es ih =>
    obtain ⟨rfl, ho, h⟩ := h
    have := ih h
    rw [UInt32.le_iff_toNat_le] at ho
    omega

/-- The extents of a covering lie in what is covered. -/
theorem Covers.bounds_of_mem {a b : Nat} {es : List Extent} (h : Covers a es b) {e : Extent}
    (he : e ∈ es) : a ≤ e.lower.toNat ∧ e.lower ≤ e.upper ∧ e.upper.toNat < b := by
  obtain ⟨pre, post, rfl⟩ := List.append_of_mem he
  obtain ⟨c, hpre, hmid⟩ := covers_append.1 h
  obtain ⟨rfl, ho, hpost⟩ := hmid
  exact ⟨hpre.le, ho, hpost.le⟩

/-- Two extents of a covering have no address in common. -/
theorem Covers.apart {a b : Nat} {es : List Extent} (h : Covers a es b) {e f : Extent}
    (he : e ∈ es) (hf : f ∈ es) (hne : e ≠ f) :
    e.upper.toNat < f.lower.toNat ∨ f.upper.toNat < e.lower.toNat := by
  induction es generalizing a with
  | nil => simp at he
  | cons g rest ih =>
    obtain ⟨-, -, h⟩ := h
    rcases List.mem_cons.1 he with rfl | he'
    · rcases List.mem_cons.1 hf with rfl | hf'
      · exact absurd rfl hne
      · exact .inl (h.bounds_of_mem hf').1
    · rcases List.mem_cons.1 hf with rfl | hf'
      · exact .inr (h.bounds_of_mem he').1
      · exact ih h he' hf'

theorem isTiling_cons_cons {e f : Extent} {rest : List Extent} {low high : UInt32} :
    IsTiling (e :: f :: rest) low high ↔
      e.lower = low ∧ e.lower ≤ e.upper ∧ e.upper.toNat + 1 = f.lower.toNat ∧
        IsTiling (f :: rest) f.lower high := by
  constructor
  · rintro ⟨hf, hl, ho, hc⟩
    rw [List.isChain_cons_cons] at hc
    exact ⟨by simpa using hf, ho e (by simp), hc.1,
      ⟨rfl, by simpa using hl, fun g hg => ho g (by simp [hg]), hc.2⟩⟩
  · rintro ⟨rfl, he, hc, -, hl, ho, hcs⟩
    refine ⟨rfl, by simpa using hl, ?_, List.isChain_cons_cons.2 ⟨hc, hcs⟩⟩
    intro g hg
    rcases List.mem_cons.1 hg with rfl | hg
    · exact he
    · exact ho g hg

/-- The two ways to say that a list tiles a window. -/
theorem isTiling_iff {es : List Extent} {low high : UInt32} :
    IsTiling es low high ↔ es ≠ [] ∧ Covers low.toNat es (high.toNat + 1) := by
  induction es generalizing low with
  | nil => exact ⟨fun h => by simpa using h.first, fun h => absurd rfl h.1⟩
  | cons e rest ih =>
    cases rest with
    | nil =>
      constructor
      · rintro ⟨hf, hl, ho, -⟩
        simp only [List.head?_cons, Option.map_some, Option.some.injEq] at hf
        simp only [List.getLast?_singleton, Option.map_some, Option.some.injEq] at hl
        exact ⟨by simp, hf ▸ rfl, ho e (by simp), by rw [hl]; rfl⟩
      · rintro ⟨-, hf, ho, hl⟩
        have hl : e.upper.toNat + 1 = high.toNat + 1 := hl
        refine ⟨?_, ?_, by simpa using ho, List.isChain_singleton e⟩
        · simpa using UInt32.toNat_inj.1 hf
        · simpa using UInt32.toNat_inj.1 (Nat.succ.inj hl)
    | cons f rest =>
      rw [isTiling_cons_cons, ih]
      constructor
      · rintro ⟨rfl, he, hc, -, h⟩
        exact ⟨by simp, rfl, he, hc.symm, h.2⟩
      · rintro ⟨-, hf, he, hc, h⟩
        exact ⟨UInt32.toNat_inj.1 hf, he, hc.symm, by simp, rfl, h⟩

theorem IsTiling.le {es : List Extent} {low high : UInt32} (h : IsTiling es low high) :
    low ≤ high := by
  obtain ⟨hne, hc⟩ := isTiling_iff.1 h
  obtain ⟨e, he⟩ := List.exists_mem_of_ne_nil es hne
  obtain ⟨hlow, hord, hhigh⟩ := hc.bounds_of_mem he
  rw [UInt32.le_iff_toNat_le] at hord ⊢
  omega

/-- Extents that cover a window tile it. -/
theorem isTiling_of_covers {es : List Extent} {low high : UInt32} (hle : low ≤ high)
    (h : Covers low.toNat es (high.toNat + 1)) : IsTiling es low high := by
  refine isTiling_iff.2 ⟨?_, h⟩
  rintro rfl
  have hempty : low.toNat = high.toNat + 1 := h
  rw [UInt32.le_iff_toNat_le] at hle
  omega

/-! ## The check -/

theorem checkFrom_eq_ok {e : Extent} {rest : List Extent} :
    checkFrom e rest = .ok () ↔ (∀ f ∈ e :: rest, f.lower ≤ f.upper) ∧
      (e :: rest).IsChain fun e next => e.upper.toNat + 1 = next.lower.toNat := by
  induction rest generalizing e with
  | nil => simp [checkFrom, UInt32.not_lt]
  | cons next rest ih =>
    rw [checkFrom, List.isChain_cons_cons, List.forall_mem_cons]
    by_cases he : e.upper < e.lower
    · simp [he, UInt32.not_le]
    by_cases hn : next.upper < next.lower
    · simp [he, hn, UInt32.not_le]
    by_cases hc : e.upper.toNat + 1 = next.lower.toNat
    · simp only [he, hn, hc, if_false, ih, ne_eq, not_true_eq_false, UInt32.not_lt.1 he, true_and]
    · simp [he, hn, hc]

/-- The check of a list succeeds exactly if the list tiles the window. -/
theorem check_eq_ok {es : List Extent} {low high : UInt32} :
    check es low high = .ok () ↔ IsTiling es low high := by
  cases es with
  | nil => exact ⟨nofun, fun h => by simpa using h.first⟩
  | cons e rest =>
    rw [check]
    split <;> rename_i hspan
    · refine ⟨nofun, fun h => ?_⟩
      rcases hspan with hlow | hhigh
      · exact absurd (Option.some.inj h.first) hlow
      · exact absurd h.last hhigh
    · rw [not_or, not_not, not_not] at hspan
      rw [checkFrom_eq_ok]
      exact ⟨fun h => ⟨congrArg some hspan.1, hspan.2, h.1, h.2⟩, fun h => ⟨h.ordered, h.contiguous⟩⟩

/-! ## Gaps -/

/-- What is left free from `a` on and below `b`: one extent without an owner, or none if there is
nothing left. -/
structure Gap (a : Nat) (es : List Extent) (b : Nat) : Prop where
  covers : Covers a es b
  short : es.length ≤ 1
  unused : ∀ e ∈ es, e.status = .free ∧ e.owner = none

theorem gap_nil (a : Nat) : Gap a [] a := ⟨rfl, by simp, by simp⟩

theorem gap_free (lower upper : UInt32) (h : lower ≤ upper) :
    Gap lower.toNat [{ lower, upper }] (upper.toNat + 1) :=
  ⟨covers_singleton.2 ⟨rfl, h, rfl⟩, by simp, by simp⟩

end Tiling

open Tiling

/-- Putting a block into a free extent leaves a gap on either side of it. -/
theorem Extent.insert_spec {e block : Extent} {parts : List Extent}
    (h : e.insert block = .ok parts) :
    e.status = .free ∧ block.lower ≤ block.upper ∧
      ∃ before after, parts = before ++ block :: after ∧
        Gap e.lower.toNat before block.lower.toNat ∧
        Gap (block.upper.toNat + 1) after (e.upper.toNat + 1) := by
  by_cases hfree : e.isFree = true
  case neg => simp [Extent.insert, hfree] at h
  by_cases hord : block.upper < block.lower
  case pos => simp [Extent.insert, hfree, hord] at h
  by_cases hin : e.contains block.lower block.upper = true
  case neg => simp [Extent.insert, hfree, hord, hin] at h
  simp only [Extent.insert, hfree, hord, hin, Bool.not_true, Bool.false_eq_true, ↓reduceIte] at h
  simp only [Extent.isFree, decide_eq_true_eq] at hfree
  simp only [Extent.contains, Bool.and_eq_true, decide_eq_true_eq, UInt32.le_iff_toNat_le] at hin
  simp only [UInt32.lt_iff_toNat_lt, Nat.not_lt] at hord
  obtain rfl := Except.ok.inj h
  refine ⟨hfree, UInt32.le_iff_toNat_le.2 hord, _, _, by simp only [List.append_assoc]; rfl, ?_, ?_⟩
  · split
    case isTrue hlt =>
      rw [UInt32.lt_iff_toNat_lt] at hlt
      have hpred : (block.lower - 1).toNat = block.lower.toNat - 1 := by
        rw [UInt32.toNat_sub_of_le _ _ (UInt32.le_iff_toNat_le.2 (by simp; omega))]
        rfl
      have := gap_free e.lower (block.lower - 1) (UInt32.le_iff_toNat_le.2 (by omega))
      rwa [hpred, Nat.sub_add_cancel (by omega)] at this
    case isFalse hlt =>
      rw [UInt32.lt_iff_toNat_lt] at hlt
      rw [show e.lower.toNat = block.lower.toNat by omega]
      exact gap_nil _
  · split
    case isTrue hlt =>
      rw [UInt32.lt_iff_toNat_lt] at hlt
      have hsucc : (block.upper + 1).toNat = block.upper.toNat + 1 := by
        have := e.upper.toNat_lt
        rw [UInt32.toNat_add, show (1 : UInt32).toNat = 1 from rfl, Nat.mod_eq_of_lt (by omega)]
      have := gap_free (block.upper + 1) e.upper (UInt32.le_iff_toNat_le.2 (by omega))
      rwa [hsucc] at this
    case isFalse hlt =>
      rw [UInt32.lt_iff_toNat_lt] at hlt
      rw [show e.upper.toNat = block.upper.toNat by omega]
      exact gap_nil _

end MipsAssembler
