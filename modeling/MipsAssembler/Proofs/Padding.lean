import Mathlib.Algebra.Group.Nat.Defs
import MipsAssembler.Proofs.Transcription
import MipsAssembler.Proofs.Written

/-!
# Alignment inside data segments

Lines of data and alignments ask that the open data segment be filled up to a multiple of some number
of bytes before they go on (`SourceLine.asks?`). `Laid` says what the entries of a segment are, line by
line: where the bytes so far are no such multiple, one entry of zeros that makes them one, and then the
payload of the line, if it has one.

The reader counts the bytes of a segment in 32 bits and may wrap around. That does no harm, because
what is asked for divides `2 ^ 32`, so that the zeros are the same as for the true number of bytes
(`padTo_fills`). `Draft.Lays` is the invariant, and every line keeps it (`Draft.Lays.step`). What
follows for the entries of a segment is read off `Laid`, by induction on the lines.
-/

namespace MipsAssembler

open ByteString Outcome

/-! ## What lines ask for -/

/-- Numbers of more than one byte stand at multiples of their size. -/
def Payload.alignment : Payload → Nat
  | .halves .. => 2
  | .words .. => 4
  | .bytes .. | .text .. | .space _ => 1

theorem Payload.alignment_dvd (p : Payload) : p.alignment ∣ 2 ^ 32 := by
  cases p with
  | halves => exact Nat.pow_dvd_pow 2 (show 1 ≤ 32 by decide)
  | words => exact Nat.pow_dvd_pow 2 (show 2 ≤ 32 by decide)
  | bytes | text | space => exact Nat.one_dvd _

/-- What a line asks of the open data segment: the multiple of bytes that it is to be filled up to, and
the payload that is to follow, if there is one. -/
def SourceLine.asks? (l : SourceLine) : Option (Nat × Option Payload) :=
  match l.statement with
  | some (.directive name arguments) =>
    match Directive.ofName? name with
    | some .align => (readLiteral 0 12 arguments).toOption.map fun n => (2 ^ n.toNat, none)
    | directive =>
      (Draft.payloadOf name arguments directive).toOption.map fun r => (r.1.toNat, some r.2)
  | _ => none

/-- After some lines, segment number `i` of a category is the one that is open. -/
def IsOpen (lines : List SourceLine) (k : Category) (i : Nat) : Prop :=
  ∃ earlier, openings lines = earlier ++ [k] ∧ earlier.count k = i

theorem IsOpen.unique {lines : List SourceLine} {k k' : Category} {i i' : Nat}
    (h : IsOpen lines k i) (h' : IsOpen lines k' i') : k = k' ∧ i = i' := by
  obtain ⟨earlier, hopen, rfl⟩ := h
  obtain ⟨earlier', hopen', rfl⟩ := h'
  obtain ⟨rfl, hk⟩ := List.append_inj' (hopen.symm.trans hopen') rfl
  obtain rfl := List.singleton_inj.1 hk
  exact ⟨rfl, rfl⟩

theorem IsOpen.count {lines : List SourceLine} {k : Category} {i : Nat} (h : IsOpen lines k i) :
    (openings lines).count k = i + 1 := by
  obtain ⟨earlier, hopen, rfl⟩ := h
  simp [hopen]

theorem openings_sublist_concat (lines : List SourceLine) (l : SourceLine) :
    (openings lines).Sublist (openings (lines ++ [l])) := by
  cases hcategory : l.category? with
  | some k =>
    rw [openings_concat_segment lines hcategory]
    exact List.sublist_append_left _ _
  | none =>
    cases hinstruction : l.isInstruction with
    | false => rw [openings_concat_quiet lines hcategory hinstruction]
    | true =>
      rw [openings_concat_instruction lines hinstruction]
      split
      · rename_i hnil
        rw [hnil]
        exact List.nil_sublist _
      · exact List.Sublist.refl _

section Payloads

variable {name arguments : ByteString} {directive : Option Directive} {align : UInt32} {p : Payload}

/-- The payloads of the directives of data. -/
theorem Draft.payloadOf_inv (h : payloadOf name arguments directive = .ok (align, p)) :
    (∃ vs, readBytes arguments = .ok vs ∧ align = 1 ∧ p = .bytes vs 0) ∨
      (∃ vs, readHalves arguments = .ok vs ∧ align = 2 ∧ p = .halves vs 0) ∨
      (∃ vs, readWords arguments = .ok vs ∧ align = 4 ∧ p = .words vs 0) ∨
      (∃ n, readLiteral 0 0x7FFFFFFF arguments = .ok n ∧ align = 1 ∧ p = .space (.ofInt n)) ∨
      ∃ chars terminated, align = 1 ∧ p = .text chars terminated 0 := by
  cases directive with
  | none => cases h
  | some directive =>
    cases directive with
    | segment k => cases h
    | ignored => cases h
    | align => cases h
    | bytes =>
      obtain ⟨vs, hvs, hp⟩ := map_eq_ok.1 h
      exact .inl ⟨vs, hvs, Prod.mk.inj hp.symm⟩
    | halves =>
      obtain ⟨vs, hvs, hp⟩ := map_eq_ok.1 h
      exact .inr (.inl ⟨vs, hvs, Prod.mk.inj hp.symm⟩)
    | words =>
      obtain ⟨vs, hvs, hp⟩ := map_eq_ok.1 h
      exact .inr (.inr (.inl ⟨vs, hvs, Prod.mk.inj hp.symm⟩))
    | space =>
      simp only [payloadOf] at h
      split at h
      · rename_i n hn
        exact .inr (.inr (.inr (.inl ⟨n, hn, Prod.mk.inj (Except.ok.inj h.symm)⟩)))
      · cases h
    | text terminated =>
      simp only [payloadOf] at h
      split at h
      · rename_i chars _
        exact .inr (.inr (.inr (.inr ⟨chars, terminated, Prod.mk.inj (Except.ok.inj h.symm)⟩)))
      · cases h

/-- The alignment of a line of data is that of its payload. -/
theorem Draft.payloadOf_alignment (h : payloadOf name arguments directive = .ok (align, p)) :
    align.toNat = p.alignment := by
  rcases payloadOf_inv h with ⟨vs, -, rfl, rfl⟩ | ⟨vs, -, rfl, rfl⟩ | ⟨vs, -, rfl, rfl⟩ |
    ⟨n, -, rfl, rfl⟩ | ⟨chars, terminated, rfl, rfl⟩ <;> rfl

end Payloads

namespace SourceLine

variable {l : SourceLine} {name arguments : ByteString}

theorem asks?_of_align {n : Int} (hs : l.statement = some (.directive name arguments))
    (hk : Directive.ofName? name = some .align) (hn : readLiteral 0 12 arguments = .ok n) :
    l.asks? = some (2 ^ n.toNat, none) := by
  simp [asks?, hs, hk, hn, Except.toOption]

theorem asks?_of_payload {align : UInt32} {p : Payload}
    (hs : l.statement = some (.directive name arguments))
    (hp : Draft.payloadOf name arguments (Directive.ofName? name) = .ok (align, p)) :
    l.asks? = some (align.toNat, some p) := by
  rw [asks?, hs]
  dsimp only
  split
  · rename_i hk
    rw [hk] at hp
    cases hp
  · simp [hp, Except.toOption]

/-- Only alignments and lines of data ask for something. -/
theorem asks?_inv {n : Nat} {own : Option Payload} (h : l.asks? = some (n, own)) :
    ∃ name arguments, l.statement = some (.directive name arguments) ∧
      ((∃ k, Directive.ofName? name = some .align ∧ readLiteral 0 12 arguments = .ok k ∧
          n = 2 ^ k.toNat ∧ own = none) ∨
        ∃ align p, Draft.payloadOf name arguments (Directive.ofName? name) = .ok (align, p) ∧
          n = align.toNat ∧ own = some p) := by
  unfold asks? at h
  split at h
  · rename_i name arguments hs
    refine ⟨name, arguments, hs, ?_⟩
    split at h
    · rename_i hk
      obtain ⟨k, hread, hpair⟩ := Option.map_eq_some_iff.1 h
      exact .inl ⟨k, hk, eq_ok_of_toOption hread, Prod.mk.inj hpair.symm⟩
    · obtain ⟨⟨align, p⟩, hp, hpair⟩ := Option.map_eq_some_iff.1 h
      exact .inr ⟨align, p, eq_ok_of_toOption hp, Prod.mk.inj hpair.symm⟩
  · cases h

/-- Lines that have no entry and are no alignments ask for nothing. -/
theorem asks?_eq_none (hentry : l.isEntry = false) (halign : l.directive? ≠ some .align) :
    l.asks? = none := by
  refine Option.eq_none_iff_forall_not_mem.2 ?_
  rintro ⟨n, own⟩ hasks
  obtain ⟨name, arguments, hs, ⟨k, hk, -⟩ | ⟨align, p, hp, -⟩⟩ := asks?_inv hasks
  · exact halign (by simp [directive?, hs, hk])
  · cases hentry.symm.trans (isEntry_of_payload hs hp).1

/-- A payload follows what it needs. -/
theorem alignment_of_asks? {n : Nat} {p : Payload} (h : l.asks? = some (n, some p)) :
    p.alignment = n := by
  obtain ⟨_, _, -, ⟨_, -, -, -, hnone⟩ | ⟨align, q, hq, rfl, hsome⟩⟩ := asks?_inv h
  · cases hnone
  · obtain rfl := Option.some.inj hsome
    exact (Draft.payloadOf_alignment hq).symm

end SourceLine

/-! ## What lines lay down -/

/-- The entries `pads` fill the entries `front` up to a multiple of `n` bytes, with one entry of zeros
where it is needed and with none where it is not. -/
structure Fills (n : Nat) (line : Int) (front pads : List (Entry Payload)) : Prop where
  none_needed : n ∣ totalSize front → pads = []
  needed : ¬n ∣ totalSize front →
    ∃ count : UInt32, count.toNat < n ∧ pads = [{ place := none, item := .space count, line }]
  dvd : n ∣ totalSize (front ++ pads)

theorem Fills.exists_count {n : Nat} {line : Int} {front pads : List (Entry Payload)}
    (h : Fills n line front pads) {e : Entry Payload} (he : e ∈ pads) :
    ∃ count : UInt32, count.toNat < n ∧ e = { place := none, item := .space count, line } := by
  by_cases hn : n ∣ totalSize front
  · simp [h.none_needed hn] at he
  · obtain ⟨count, hcount, rfl⟩ := h.needed hn
    exact ⟨count, hcount, List.mem_singleton.1 he⟩

theorem Fills.line {n : Nat} {line : Int} {front pads : List (Entry Payload)}
    (h : Fills n line front pads) : ∀ e ∈ pads, e.line = line := by
  intro e he
  obtain ⟨count, -, rfl⟩ := h.exists_count he
  rfl

theorem Fills.alignment {n : Nat} {line : Int} {front pads : List (Entry Payload)}
    (h : Fills n line front pads) : pads = [] ∨ ∃ e, pads = [e] ∧ e.item.alignment = 1 := by
  by_cases hn : n ∣ totalSize front
  · exact .inl (h.none_needed hn)
  · obtain ⟨count, -, rfl⟩ := h.needed hn
    exact .inr ⟨_, rfl, rfl⟩

/-- The entries that some lines lay down in segment number `i` of a mode. -/
inductive Laid (m : Mode) (i : Nat) : List SourceLine → List (Entry Payload) → Prop
  | nil : Laid m i [] []
  /-- A line that stands in another segment, or asks for nothing. -/
  | skip {lines : List SourceLine} {l : SourceLine} {es : List (Entry Payload)} : Laid m i lines es →
      (IsOpen lines (.data m) i → l.asks? = none) → Laid m i (lines ++ [l]) es
  /-- A line of the segment that asks for something gets it. -/
  | line {lines : List SourceLine} {l : SourceLine} {es pads kept : List (Entry Payload)} {n : Nat}
      {own : Option Payload} : Laid m i lines es → IsOpen lines (.data m) i →
      l.asks? = some (n, own) → Fills n l.number es pads → kept.map (·.item) = own.toList →
      (∀ e ∈ kept, e.line = l.number) → Laid m i (lines ++ [l]) (es ++ pads ++ kept)

/-- Before each entry there is a multiple of the bytes that its payload needs. -/
def NaturallyAligned (es : List (Entry Payload)) : Prop :=
  ∀ front e back, es = front ++ e :: back → e.item.alignment ∣ totalSize front

theorem NaturallyAligned.concat {es : List (Entry Payload)} (h : NaturallyAligned es)
    {e : Entry Payload} (he : e.item.alignment ∣ totalSize es) : NaturallyAligned (es ++ [e]) := by
  intro front e' back hsplit
  rcases append_cons_eq_concat hsplit with ⟨rfl, rfl, rfl⟩ | ⟨back, rfl, rfl⟩
  · exact he
  · exact h front e' back rfl

/-- Where a line stands among the entries of its segment: after those of the lines before it come the
zeros that it needs, its payload, if it has one, and the entries of the lines after it. -/
def LaidBy (l : SourceLine) (n : Nat) (own : Option Payload) (es : List (Entry Payload)) : Prop :=
  ∃ front pads kept back, es = front ++ pads ++ kept ++ back ∧ Fills n l.number front pads ∧
    kept.map (·.item) = own.toList ∧ (∀ e ∈ front, e.line < l.number) ∧
    (∀ e ∈ kept, e.line = l.number) ∧ ∀ e ∈ back, l.number < e.line

theorem LaidBy.append {l : SourceLine} {n : Nat} {own : Option Payload}
    {es new : List (Entry Payload)} (h : LaidBy l n own es) (hnew : ∀ e ∈ new, l.number < e.line) :
    LaidBy l n own (es ++ new) := by
  obtain ⟨front, pads, kept, back, rfl, hfills, hown, hfront, hkept, hback⟩ := h
  refine ⟨front, pads, kept, back ++ new, by simp, hfills, hown, hfront, hkept, fun e he => ?_⟩
  rcases List.mem_append.1 he with he | he
  · exact hback e he
  · exact hnew e he

namespace Laid

variable {m : Mode} {i : Nat} {lines : List SourceLine} {es : List (Entry Payload)}

/-- A segment that is not yet open has no entries. -/
theorem fresh (h : (openings lines).count (.data m) ≤ i) : Laid m i lines [] := by
  induction lines using List.reverseRecOn with
  | nil => exact .nil
  | append_singleton lines l ih =>
    have hcount := ((openings_sublist_concat lines l).count_le (Category.data m)).trans h
    refine .skip (ih hcount) fun hopen => ?_
    rw [hopen.count] at hcount
    omega

/-- Every entry comes from a line of the segment that asks for something. -/
theorem exists_line (h : Laid m i lines es) {e : Entry Payload} (he : e ∈ es) :
    ∃ before l after n own, lines = before ++ l :: after ∧ IsOpen before (.data m) i ∧
      l.asks? = some (n, own) ∧ e.line = l.number := by
  induction h with
  | nil => cases he
  | @skip lines l es _ _ ih =>
    obtain ⟨before, l', after, n, own, rfl, hfound⟩ := ih he
    exact ⟨before, l', after ++ [l], n, own, by simp, hfound⟩
  | @line lines l es pads kept n own _ hopen hasks hfills _ hkept ih =>
    rw [List.append_assoc, List.mem_append] at he
    rcases he with he | he
    · obtain ⟨before, l', after, n, own, rfl, hfound⟩ := ih he
      exact ⟨before, l', after ++ [l], n, own, by simp, hfound⟩
    · refine ⟨lines, l, [], n, own, rfl, hopen, hasks, ?_⟩
      rcases List.mem_append.1 he with he | he
      · exact hfills.line e he
      · exact hkept e he

/-- The entries of a segment stand where their payloads need. -/
theorem naturallyAligned (h : Laid m i lines es) : NaturallyAligned es := by
  induction h with
  | nil =>
    intro front e back hsplit
    simp at hsplit
  | skip _ _ ih => exact ih
  | @line lines l es pads kept n own _ _ hasks hfills hown _ ih =>
    have hpads : NaturallyAligned (es ++ pads) := by
      rcases hfills.alignment with rfl | ⟨e, rfl, he⟩
      · simpa using ih
      · exact ih.concat (he ▸ Nat.one_dvd _)
    cases own with
    | none =>
      obtain rfl := List.map_eq_nil_iff.1 hown
      simpa using hpads
    | some p =>
      obtain ⟨e, rfl, rfl⟩ := List.map_eq_singleton_iff.1 hown
      exact hpads.concat (SourceLine.alignment_of_asks? hasks ▸ hfills.dvd)

/-- A line of the segment that asks for something stands among its entries. -/
theorem laidBy (h : Laid m i lines es) (hsorted : lines.Pairwise fun l l' => l.number < l'.number)
    {before after : List SourceLine} {l : SourceLine} {n : Nat} {own : Option Payload}
    (hsplit : lines = before ++ l :: after) (hopen : IsOpen before (.data m) i)
    (hasks : l.asks? = some (n, own)) : LaidBy l n own es := by
  induction h generalizing before after with
  | nil => simp at hsplit
  | @skip lines l' es _ hskip ih =>
    rcases append_cons_eq_concat hsplit with ⟨rfl, rfl, rfl⟩ | ⟨after, rfl, rfl⟩
    · cases (hskip hopen).symm.trans hasks
    · exact ih (List.pairwise_append.1 hsorted).1 rfl hopen
  | @line lines l' es pads kept n' own' h _ hasks' hfills hown hkept ih =>
    have hlast : ∀ l ∈ lines, l.number < l'.number := by
      intro l hl
      exact (List.pairwise_append.1 hsorted).2.2 l hl l' (by simp)
    rcases append_cons_eq_concat hsplit with ⟨rfl, rfl, rfl⟩ | ⟨after, rfl, rfl⟩
    · obtain ⟨rfl, rfl⟩ := Prod.mk.inj (Option.some.inj (hasks'.symm.trans hasks))
      refine ⟨es, pads, kept, [], by simp, hfills, hown, fun e he => ?_, hkept, by simp⟩
      obtain ⟨_, l₀, _, _, _, rfl, -, -, hline⟩ := h.exists_line he
      rw [hline]
      exact Int.ofNat_lt.2 (hlast l₀ (by simp))
    · rw [List.append_assoc]
      refine (ih (List.pairwise_append.1 hsorted).1 rfl hopen).append fun e he => ?_
      have hline : e.line = l'.number := by
        rcases List.mem_append.1 he with he | he
        · exact hfills.line e he
        · exact hkept e he
      rw [hline]
      exact Int.ofNat_lt.2 (hlast l (by simp))

end Laid

/-! ## The invariant -/

namespace Draft

/-- The open data segment is the last one of its mode, and the draft has its bytes modulo `2 ^ 32`. -/
structure Opened (d : Draft) (m : Mode) (init : List (Segment Payload)) (s : Segment Payload) :
    Prop where
  current : ∃ offset, d.current = .data m offset ∧ offset.toNat = totalSize s.entries % 2 ^ 32
  data : d.program.data m = init ++ [s]

variable {d : Draft} {m : Mode} {init : List (Segment Payload)} {s : Segment Payload}

/-- An entry that is added is counted. -/
theorem Opened.add (h : d.Opened m init s) (e : Entry Payload) (d' : Draft) {offset : UInt32}
    (hcurrent : d.current = .data m offset)
    (hcurrent' : d'.current = .data m (offset + byteSize e.item))
    (hprogram : d'.program = d.program.addData m e) :
    d'.Opened m init { s with entries := s.entries ++ [e] } ∧
      ∀ m', m' ≠ m → d'.program.data m' = d.program.data m' := by
  refine ⟨⟨⟨_, hcurrent', ?_⟩, ?_⟩, fun m' hm => ?_⟩
  · obtain ⟨offset', hcurrent'', hoffset⟩ := h.current
    obtain ⟨-, rfl⟩ := OpenSegment.data.inj (hcurrent.symm.trans hcurrent'')
    rw [UInt32.toNat_add, hoffset, totalSize_append, totalSize_cons, totalSize_nil,
      Nat.mod_add_mod, Nat.add_zero]
  · rw [hprogram, Program.addData, Program.data_mapData, if_pos rfl, h.data, addToLast_concat]
  · rw [hprogram, Program.addData, Program.data_mapData, if_neg hm]

/-- Filling up adds the zeros that are needed for the true number of bytes. -/
theorem padTo_fills (h : d.Opened m init s) {n : UInt32} (hn : n.toNat ∣ 2 ^ 32) (line : Int) :
    ∃ pads, Fills n.toNat line s.entries pads ∧
      (d.padTo n line).Opened m init { s with entries := s.entries ++ pads } ∧
      ∀ m', m' ≠ m → (d.padTo n line).program.data m' = d.program.data m' := by
  obtain ⟨offset, hcurrent, hoffset⟩ := h.current
  have hrest : (offset % n).toNat = totalSize s.entries % n.toNat := by
    rw [UInt32.toNat_mod, hoffset, Nat.mod_mod_of_dvd _ hn]
  have hpos : 0 < n.toNat := Nat.pos_of_dvd_of_pos hn (by decide)
  rw [padTo, hcurrent]
  dsimp only
  split
  · rename_i hzero
    rw [hzero] at hrest
    have hdvd : n.toNat ∣ totalSize s.entries := Nat.dvd_of_mod_eq_zero hrest.symm
    refine ⟨[], ⟨fun _ => rfl, fun hnot => absurd hdvd hnot, by simpa using hdvd⟩, ?_,
      fun _ _ => rfl⟩
    simpa using h
  · rename_i hzero
    have hne : (offset % n).toNat ≠ 0 := fun h0 => hzero (UInt32.toNat_inj.1 h0)
    have hlt : (offset % n).toNat < n.toNat := by
      rw [UInt32.toNat_mod]
      exact Nat.mod_lt _ hpos
    have hcount : (n - offset % n).toNat = n.toNat - totalSize s.entries % n.toNat := by
      rw [UInt32.toNat_sub_of_le _ _ (UInt32.le_iff_toNat_le.2 hlt.le), hrest]
    obtain ⟨hopened, hothers⟩ := h.add { place := none, item := .space (n - offset % n), line }
      (d.addPadding m offset (n - offset % n) line) hcurrent rfl rfl
    rw [hrest] at hne hlt
    refine ⟨_, ⟨fun hdvd => absurd (Nat.mod_eq_zero_of_dvd hdvd) hne, fun _ => ⟨_, ?_, rfl⟩, ?_⟩,
      hopened, hothers⟩
    · rw [hcount]
      omega
    · have hsize : totalSize (s.entries ++ [{ place := none, item := .space (n - offset % n), line }]) =
          totalSize s.entries + (n - offset % n).toNat := by
        rw [totalSize_append]
        rfl
      have hdiv := Nat.div_add_mod (totalSize s.entries) n.toNat
      refine ⟨totalSize s.entries / n.toNat + 1, ?_⟩
      rw [hsize, hcount, Nat.mul_succ]
      omega

/-- A payload follows the entries of the open data segment. -/
theorem Opened.addPayload (h : d.Opened m init s) (p : Payload) (line : Int) :
    (d.addPayload p line).Opened m init
        { s with entries := s.entries ++ [{ place := d.nextPlace, item := p, line }] } ∧
      ∀ m', m' ≠ m → (d.addPayload p line).program.data m' = d.program.data m' := by
  obtain ⟨offset, hcurrent, -⟩ := h.current
  refine h.add { place := d.nextPlace, item := p, line } (d.addPayload p line) hcurrent ?_ ?_
  · rw [Draft.addPayload, hcurrent]
    rfl
  · rw [Draft.addPayload, hcurrent]

/-- What is known of a draft after some lines. -/
structure Lays (lines : List SourceLine) (d : Draft) : Prop where
  keeps : d.Keeps lines
  laid : ∀ m i s, (d.program.data m)[i]? = some s → Laid m i lines s.entries
  opened : ∀ m offset, d.current = .data m offset → ∃ init s, d.Opened m init s

theorem lays_empty : Lays [] {} where
  keeps := keeps_empty
  laid m i s h := by cases m <;> simp [Program.data] at h
  opened m offset h := by cases h

variable {lines : List SourceLine} {l : SourceLine} {d' : Draft}

theorem Keeps.isOpen (h : d.Keeps lines) (hopened : d.Opened m init s) :
    IsOpen lines (.data m) init.length := by
  obtain ⟨offset, hcurrent, -⟩ := hopened.current
  obtain ⟨earlier, hopen, hlength⟩ := h.open_segment (k := .data m) (by rw [hcurrent]; rfl)
  refine ⟨earlier, hopen, ?_⟩
  rw [Program.segments, hopened.data, List.length_append, List.length_singleton] at hlength
  omega

theorem Keeps.exists_offset (h : d.Keeps lines) {i : Nat} (hopen : IsOpen lines (.data m) i) :
    ∃ offset, d.current = .data m offset := by
  obtain ⟨earlier, hopen, -⟩ := hopen
  have hcurrent := h.current
  rw [hopen, List.getLast?_concat] at hcurrent
  cases hd : d.current with
  | none => simp [hd, OpenSegment.category?] at hcurrent
  | text m' => simp [hd, OpenSegment.category?] at hcurrent
  | data m' offset =>
    obtain rfl : m' = m := by simpa [hd, OpenSegment.category?] using hcurrent
    exact ⟨offset, rfl⟩

/-- A line that asks for nothing adds no entries; it may open a segment. -/
theorem Lays.skip (h : d.Lays lines) (hkeeps : d'.Keeps (lines ++ [l]))
    (hquiet : ∀ m i, IsOpen lines (.data m) i → l.asks? = none)
    (hdata : ∀ m, ∃ new, d'.program.data m = d.program.data m ++ new ∧ ∀ s ∈ new, s.entries = [])
    (hopened : ∀ m offset, d'.current = .data m offset → ∃ init s, d'.Opened m init s) :
    d'.Lays (lines ++ [l]) := by
  refine ⟨hkeeps, fun m i s hs => ?_, hopened⟩
  obtain ⟨new, hnew, hempty⟩ := hdata m
  refine .skip ?_ (hquiet m i)
  rw [hnew] at hs
  rcases Nat.lt_or_ge i (d.program.data m).length with hi | hi
  · rw [List.getElem?_append_left hi] at hs
    exact h.laid m i s hs
  · rw [List.getElem?_append_right hi] at hs
    rw [hempty s (List.mem_of_getElem? hs)]
    apply Laid.fresh
    rw [← h.keeps.program.segments]
    exact hi

/-- A line of the open data segment that asks for something adds zeros and its payload. -/
theorem Lays.fill (h : d.Lays lines) (hkeeps : d'.Keeps (lines ++ [l])) {n : Nat}
    {own : Option Payload} {pads kept : List (Entry Payload)} (hasks : l.asks? = some (n, own))
    (hopened : d.Opened m init s)
    (hopened' : d'.Opened m init { s with entries := s.entries ++ pads ++ kept })
    (hothers : ∀ m', m' ≠ m → d'.program.data m' = d.program.data m')
    (hfills : Fills n l.number s.entries pads) (hown : kept.map (·.item) = own.toList)
    (hline : ∀ e ∈ kept, e.line = l.number) : d'.Lays (lines ++ [l]) := by
  have hopen := h.keeps.isOpen hopened
  refine ⟨hkeeps, fun m' i s' hs' => ?_, fun m' offset hcurrent => ?_⟩
  · by_cases hm : m' = m
    · subst hm
      rw [hopened'.data] at hs'
      rcases Nat.lt_or_ge i init.length with hi | hi
      · -- a segment before the open one
        rw [List.getElem?_append_left hi] at hs'
        have hs : (d.program.data m')[i]? = some s' := by
          rw [hopened.data, List.getElem?_append_left hi, hs']
        refine .skip (h.laid m' i s' hs) fun hopen' => ?_
        have := (hopen.unique hopen').2
        omega
      · obtain ⟨rfl, rfl⟩ : i = init.length ∧ s' = { s with entries := s.entries ++ pads ++ kept } := by
          rw [List.getElem?_append_right hi, List.getElem?_singleton] at hs'
          split at hs'
          · exact ⟨by omega, (Option.some.inj hs').symm⟩
          · cases hs'
        have hs : (d.program.data m')[init.length]? = some s := by simp [hopened.data]
        exact .line (h.laid m' _ s hs) hopen hasks hfills hown hline
    · rw [hothers m' hm] at hs'
      refine .skip (h.laid m' i s' hs') fun hopen' => ?_
      obtain ⟨hk, -⟩ := hopen.unique hopen'
      exact absurd (Category.data.inj hk).symm hm
  · obtain ⟨offset', hcurrent', -⟩ := hopened'.current
    obtain ⟨rfl, -⟩ := OpenSegment.data.inj (hcurrent.symm.trans hcurrent')
    exact ⟨init, _, hopened'⟩

/-- What an alignment asks for. -/
theorem toNat_ofNat_shiftLeft {n : Nat} (hn : n ≤ 12) : (UInt32.ofNat (1 <<< n)).toNat = 2 ^ n := by
  have hlt : 2 ^ n < 2 ^ 32 := Nat.pow_lt_pow_right (by decide) (by omega)
  rw [Nat.one_shiftLeft]
  exact UInt32.toNat_ofNat_of_lt' hlt

theorem Opened.addLabels (h : d.Opened m init s) (labels : List ByteString) :
    (d.addLabels labels).Opened m init s :=
  ⟨h.current, h.data⟩

/-- Opening a segment adds one without entries, and it is the open one. -/
theorem Lays.openSegment (h : d.Lays lines) {k : Category} (start : Option UInt32)
    (hkeeps : (d.openSegment k start).Keeps (lines ++ [l])) (hasks : l.asks? = none) :
    (d.openSegment k start).Lays (lines ++ [l]) := by
  refine h.skip hkeeps (fun _ _ _ => hasks) (fun m => ?_) fun m offset hcurrent => ?_
  · cases k with
    | text m' =>
      refine ⟨[], ?_, by simp⟩
      simp [Draft.openSegment, Program.openSegment, Program.data_mapText]
    | data m' =>
      by_cases hm : m = m'
      · refine ⟨[{ start := some { address := start } }], ?_, by simp⟩
        simp [Draft.openSegment, Program.openSegment, Program.data_mapData, hm]
      · refine ⟨[], ?_, by simp⟩
        simp [Draft.openSegment, Program.openSegment, Program.data_mapData, hm]
  · cases k with
    | text m' => cases hcurrent
    | data m' =>
      obtain ⟨rfl, rfl⟩ := OpenSegment.data.inj hcurrent
      refine ⟨d.program.data m', { start := some { address := start } }, ⟨0, rfl, rfl⟩, ?_⟩
      simp [Draft.openSegment, Program.openSegment, Program.data_mapData]

/-- **One line.** A line without an error lays down what it asks for. -/
theorem Lays.step (h : d.Lays lines) (hnumber : ∀ l' ∈ lines, l'.number < l.number)
    (ht : d.Takes l d') : d'.Lays (lines ++ [l]) := by
  have hkeeps := h.keeps.step hnumber ht
  cases ht with
  | quiet hentry hcategory hclosed =>
    refine h.skip hkeeps (fun m i hopen => ?_) (fun m => ⟨[], by simp [addLabels], by simp⟩) ?_
    · obtain ⟨offset, hcurrent⟩ := h.keeps.exists_offset hopen
      exact SourceLine.asks?_eq_none hentry fun halign => hclosed halign m offset hcurrent
    · intro m offset hcurrent
      obtain ⟨init, s, hopened⟩ := h.opened m offset hcurrent
      exact ⟨init, s, hopened.addLabels _⟩
  | align hs hk hn hcurrent =>
    obtain ⟨init, s, hopened⟩ := h.opened _ _ hcurrent
    obtain ⟨-, hhigh⟩ := readLiteral_bounds hn
    have hpower := toNat_ofNat_shiftLeft (Int.toNat_le.2 hhigh)
    have hdvd : (2 : Nat) ^ _ ∣ 2 ^ 32 := Nat.pow_dvd_pow 2 ((Int.toNat_le.2 hhigh).trans (by decide))
    obtain ⟨pads, hfills, hopened', hothers⟩ :=
      padTo_fills (hopened.addLabels l.labels) (hpower ▸ hdvd) l.number
    rw [hpower] at hfills
    rw [← List.append_nil (s.entries ++ pads)] at hopened'
    exact h.fill hkeeps (SourceLine.asks?_of_align hs hk hn) hopened hopened' hothers hfills rfl
      (by simp)
  | segment start hcategory hpending hlabels =>
    refine h.openSegment start hkeeps (SourceLine.asks?_eq_none ?_ ?_)
    · exact SourceLine.isEntry_of_category? hcategory
    · intro halign
      simp [SourceLine.category?, halign] at hcategory
  | @payload m _ name arguments align p hs hp hcurrent =>
    obtain ⟨init, s, hopened⟩ := h.opened _ _ hcurrent
    have hdvd : align.toNat ∣ 2 ^ 32 := payloadOf_alignment hp ▸ p.alignment_dvd
    obtain ⟨pads, hfills, hopened', hothers⟩ :=
      padTo_fills (hopened.addLabels l.labels) hdvd l.number
    obtain ⟨hopened'', hothers'⟩ := hopened'.addPayload p l.number
    refine h.fill hkeeps (SourceLine.asks?_of_payload hs hp) hopened hopened'' (fun m' hm => ?_)
      hfills rfl (by simp)
    rw [hothers' m' hm, hothers m' hm]
    rfl
  | instruction hs hinst hcurrent =>
    refine h.skip hkeeps (fun _ _ _ => by simp [SourceLine.asks?, hs]) (fun m => ?_) ?_
    · exact ⟨[], by simp [addInstruction, addLabels, Program.addText, Program.data_mapText], by simp⟩
    · intro m offset hcurrent'
      cases hcurrent.symm.trans hcurrent'
  | firstInstruction hs hinst hcurrent =>
    refine h.skip hkeeps (fun _ _ _ => by simp [SourceLine.asks?, hs]) (fun m => ?_) ?_
    · refine ⟨[], ?_, by simp⟩
      simp [addInstruction, addLabels, Draft.openSegment, Program.openSegment, Program.addText,
        Program.data_mapText]
    · intro m offset hcurrent'
      cases hcurrent'

/-- **All lines.** Lines without an error, in ascending order, lay down what they ask for. -/
theorem Lays.reads {more : List SourceLine} (h : d.Lays lines)
    (hsorted : (lines ++ more).Pairwise fun l l' => l.number < l'.number)
    (hreads : d.Reads more d') : d'.Lays (lines ++ more) :=
  hreads.run (fun lines d => d.Lays lines) (fun _ _ _ _ h hnumber ht => h.step hnumber ht) h hsorted

end Draft

/-- The data segments of a program are what the lines of its source lay down. -/
theorem Program.parse_laid {src : ByteString} {p : Program} (h : Program.parse src = .ok p) :
    ∃ lines, sourceLines src = .ok lines ∧
      ∀ m i s, (p.data m)[i]? = some s → Laid m i lines s.entries := by
  obtain ⟨lines, d, hlines, hreads, -, rfl⟩ := Program.parse_reads h
  have hsorted := pairwise_number_of_sourceLines hlines
  have hlays : d.Lays ([] ++ lines) := Draft.lays_empty.reads hsorted hreads
  exact ⟨lines, hlines, hlays.laid⟩

/-- **Alignment inside data segments.** In every data segment of a program that is read from a source,
the bytes before a payload of halfwords or words are a multiple of two or four. A line of the segment
that asks for a multiple of `n` bytes, be it an alignment or data, finds the entries of the lines
before it filled up: by nothing if they are such a multiple, and by one entry of fewer than `n` zeros
if not. After that come its payload, if it has one, and the entries of later lines. There are no other
entries. The sizes are added up without bound. -/
theorem Program.parse_aligned {src : ByteString} {p : Program} (h : Program.parse src = .ok p) :
    ∃ lines, sourceLines src = .ok lines ∧ ∀ m i s, (p.data m)[i]? = some s →
      (∀ front e back, s.entries = front ++ e :: back → e.item.alignment ∣ totalSize front) ∧
      (∀ before l after n own, lines = before ++ l :: after → IsOpen before (.data m) i →
        l.asks? = some (n, own) → LaidBy l n own s.entries) ∧
      ∀ e ∈ s.entries, ∃ before l after n own, lines = before ++ l :: after ∧
        IsOpen before (.data m) i ∧ l.asks? = some (n, own) ∧ e.line = l.number := by
  obtain ⟨lines, hlines, hlaid⟩ := Program.parse_laid h
  have hsorted := pairwise_number_of_sourceLines hlines
  refine ⟨lines, hlines, fun m i s hs => ⟨?_, ?_, ?_⟩⟩
  · exact (hlaid m i s hs).naturallyAligned
  · intro before l after n own hsplit hopen hasks
    exact (hlaid m i s hs).laidBy hsorted hsplit hopen hasks
  · intro e he
    exact (hlaid m i s hs).exists_line he

/-- A source whose data is longer than the address space, so that the reader's count wraps around. -/
def wrappedSource : ByteString :=
  ".data\n.space 0x7FFFFFFF\n.space 0x7FFFFFFF\n.space 3\nx: .word 5\n.byte 1\n.align 3\n" ++
    ".half 6\n.text\n.align 2\nnop\n"

/-- The word comes after three zeros, and the alignment in line 7 adds seven, although the count is nine
by then; the halfwords after it need none. -/
theorem Program.parse_aligned_wrapped :
    ∃ p s, Program.parse wrappedSource = .ok p ∧ (p.data .user)[0]? = some s ∧
      s.entries.map (·.item) = [.space 0x7FFFFFFF, .space 0x7FFFFFFF, .space 3, .space 3,
        .words [5] 0, .bytes [1] 0, .space 7, .halves [6] 0] ∧
      (∀ front e back, s.entries = front ++ e :: back → e.item.alignment ∣ totalSize front) ∧
      LaidBy ⟨7, [], some (.directive ".align" "3")⟩ 8 none s.entries := by
  have hitems : ((Program.parse wrappedSource).toOption.bind fun p => (p.data .user)[0]?).map
      (fun s => s.entries.map (·.item)) = some [.space 0x7FFFFFFF, .space 0x7FFFFFFF, .space 3,
        .space 3, .words [5] 0, .bytes [1] 0, .space 7, .halves [6] 0] := by decide +kernel
  have hline : ((sourceLines wrappedSource).toOption.map fun lines =>
      (openings (lines.take 6), lines[6]?)) =
      some ([.data .user], some ⟨7, [], some (.directive ".align" "3")⟩) := by decide +kernel
  obtain ⟨s, hs, hitems⟩ := Option.map_eq_some_iff.1 hitems
  obtain ⟨p, hp, hs⟩ := Option.bind_eq_some_iff.1 hs
  have hparse := eq_ok_of_toOption hp
  obtain ⟨lines, hlines, haligned⟩ := Program.parse_aligned hparse
  rw [hlines] at hline
  obtain ⟨hopen, hseven⟩ := Prod.mk.inj (Option.some.inj hline)
  obtain ⟨hlt, hseven⟩ := List.getElem?_eq_some_iff.1 hseven
  have hsplit : lines = lines.take 6 ++ lines[6] :: lines.drop 7 := by simp
  rw [hseven] at hsplit
  obtain ⟨hnatural, hlaid, -⟩ := haligned .user 0 s hs
  refine ⟨p, s, hparse, hs, hitems, hnatural, ?_⟩
  exact hlaid _ _ _ 8 none hsplit ⟨[], hopen, rfl⟩ (by decide +kernel)

end MipsAssembler
