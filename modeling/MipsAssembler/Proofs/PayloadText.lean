import MipsAssembler.Proofs.OperandFields
import MipsAssembler.Proofs.Padding
import MipsAssembler.Proofs.QuotedText

/-!
# Payloads that read back

`Payload.render` writes a payload as a line of data. `Payload.Writable` singles out the payloads that a
source can have: lists of numbers are not empty and have no strides, texts are not filled up, and zeros
are fewer than `2 ^ 31`. Each of them is read back from its line, as the only entry of the only segment
(`Payload.Writable.parse_line`), and no source has any other (`Program.writable_of_parse`).

Numbers are read back because hexadecimal numerals are, and plain text is taken apart as it was put
together. Texts are read back because quoted text is, and a line with quoted text is taken as it is.
-/

namespace MipsAssembler

open ByteString Outcome

/-! ## Payloads of sources -/

/-- The payloads that a source can have. -/
def Payload.Writable : Payload → Prop
  | .bytes values stride => values ≠ [] ∧ stride = 0
  | .halves values stride => values ≠ [] ∧ stride = 0
  | .words values stride => values ≠ [] ∧ stride = 0
  | .text _ _ align => align = 0
  | .space count => count.toNat < 2 ^ 31

instance : DecidablePred Payload.Writable
  | .bytes values stride => inferInstanceAs (Decidable (values ≠ [] ∧ stride = 0))
  | .halves values stride => inferInstanceAs (Decidable (values ≠ [] ∧ stride = 0))
  | .words values stride => inferInstanceAs (Decidable (values ≠ [] ∧ stride = 0))
  | .text _ _ align => inferInstanceAs (Decidable (align = 0))
  | .space count => inferInstanceAs (Decidable (count.toNat < 2 ^ 31))

/-- A list of numbers that is read is not empty. -/
theorem ne_nil_of_readList {α : Type} {ofInt : Int → α} {low high : Int} {s : ByteString}
    {values : List α} (h : (readList low high s).map (·.map ofInt) = .ok values) : values ≠ [] := by
  obtain ⟨vs, hvs, rfl⟩ := map_eq_ok.1 h
  rw [readList] at hvs
  split at hvs
  · cases hvs
  · have hlength := (mapM_eq_ok.1 hvs).length_eq
    intro hnil
    rw [List.map_eq_nil_iff.1 hnil] at hlength
    exact splitOperandsFrom_ne_nil _ _ (List.length_eq_zero_iff.1 hlength)

/-- Lines of data have payloads that can be written. -/
theorem Draft.writable_of_payloadOf {name arguments : ByteString} {directive : Option Directive}
    {align : UInt32} {v : Payload} (h : payloadOf name arguments directive = .ok (align, v)) :
    v.Writable := by
  rcases payloadOf_inv h with ⟨values, hvalues, -, rfl⟩ | ⟨values, hvalues, -, rfl⟩ |
    ⟨values, hvalues, -, rfl⟩ | ⟨n, hn, -, rfl⟩ | ⟨chars, terminated, -, rfl⟩
  · exact ⟨ne_nil_of_readList hvalues, rfl⟩
  · exact ⟨ne_nil_of_readList hvalues, rfl⟩
  · exact ⟨ne_nil_of_readList hvalues, rfl⟩
  · obtain ⟨hlow, hhigh⟩ := readLiteral_bounds hn
    rw [Payload.Writable, UInt32.ofInt, UInt32.toNat_ofNat']
    omega
  · exact rfl

theorem SourceLine.writable_of_asks? {l : SourceLine} {n : Nat} {own : Option Payload}
    (h : l.asks? = some (n, own)) : n ≤ 2 ^ 12 ∧ ∀ v ∈ own, v.Writable := by
  obtain ⟨_, _, -, ⟨k, -, hk, rfl, rfl⟩ | ⟨align, v, hv, rfl, rfl⟩⟩ := asks?_inv h
  · obtain ⟨-, hhigh⟩ := readLiteral_bounds hk
    exact ⟨Nat.pow_le_pow_right (by decide) (Int.toNat_le.2 hhigh), by simp⟩
  · refine ⟨?_, ?_⟩
    · rw [Draft.payloadOf_alignment hv]
      cases v <;> simp [Payload.alignment]
    · rintro v ⟨⟩
      exact Draft.writable_of_payloadOf hv

/-- What lines lay down can be written: their payloads, and the zeros before them. -/
theorem Laid.writable {m : Mode} {i : Nat} {lines : List SourceLine} {es : List (Entry Payload)}
    (h : Laid m i lines es) : ∀ e ∈ es, e.item.Writable := by
  induction h with
  | nil => simp
  | skip _ _ ih => exact ih
  | @line lines l es pads kept n own _ _ hasks hfills hown _ ih =>
    obtain ⟨hn, hwritable⟩ := SourceLine.writable_of_asks? hasks
    intro e he
    rw [List.append_assoc, List.mem_append, List.mem_append] at he
    rcases he with he | he | he
    · exact ih e he
    · obtain ⟨count, hcount, rfl⟩ := hfills.exists_count he
      exact Nat.lt_of_lt_of_le hcount (hn.trans (by decide))
    · have hmem : e.item ∈ own.toList := hown ▸ List.mem_map_of_mem he
      exact hwritable e.item (Option.mem_toList.1 hmem)

/-- No source has any other payloads. -/
theorem Program.writable_of_parse {src : ByteString} {p : Program} (h : Program.parse src = .ok p)
    {m : Mode} {s : Segment Payload} (hs : s ∈ p.data m) {e : Entry Payload} (he : e ∈ s.entries) :
    e.item.Writable := by
  obtain ⟨lines, -, hlaid⟩ := Program.parse_laid h
  obtain ⟨i, hi⟩ := List.mem_iff_getElem?.1 hs
  exact (hlaid m i s hi).writable e he

/-! ## A source of one payload -/

/-- The program of a source with one payload: one data segment with one entry, which stands on the
second line and has no labels. -/
def Program.singleData (v : Payload) : Program where
  userData := [{ start := some {}, entries := [{ place := none, item := v, line := 2 }] }]

/-- The name of a directive in lower case. -/
structure IsDirectiveName (name : ByteString) : Prop where
  isWord : IsWord name
  lower_eq : lower name = name
  first : name.head? = some (ascii '.')

theorem isDirectiveName_of_ofName? {name : ByteString} {directive : Directive}
    (h : Directive.ofName? name = some directive) : IsDirectiveName name := by
  have hall : ∀ e ∈ Directive.table, e.1 ≠ [] ∧ e.1.all isWordByte = true ∧ lower e.1 = e.1 ∧
      e.1.head? = some (ascii '.') := by decide +kernel
  obtain ⟨before, after, htable, -⟩ := List.lookup_eq_some_iff.1 h
  obtain ⟨hne, hbytes, hlower, hfirst⟩ := hall (name, directive) (by simp [htable])
  exact ⟨⟨hne, List.all_eq_true.1 hbytes⟩, hlower, hfirst⟩

section Lines

variable {name arguments : ByteString} {directive : Directive} {align : UInt32} {v : Payload}

theorem IsDirectiveName.ofText_eq (h : IsDirectiveName name) (harguments : trim arguments = arguments) :
    Statement.ofText (name ++ " " ++ arguments) = .directive name arguments := by
  have hgap : ∀ b ∈ name, isGap b = false := fun b hb => isGap_of_isWordByte (h.isWord.bytes b hb)
  have hspace : ofString " " = [ascii ' '] := rfl
  have hfirst : (name ++ " " ++ arguments).head? = some (ascii '.') := by
    rw [List.append_assoc, List.head?_append, h.first]
    rfl
  rw [Statement.ofText, if_pos hfirst, firstWord, List.append_assoc, hspace, List.singleton_append,
    cutAt_append hgap rfl]
  simp only [Prod.map_apply, id_eq, h.lower_eq, harguments]

theorem Draft.apply_payload {d : Draft} {m : Mode} {offset : UInt32}
    (hcurrent : d.current = .data m offset) (hname : Directive.ofName? name = some directive)
    (hv : payloadOf name arguments (some directive) = .ok (align, v)) (line : Int) :
    d.apply line (.directive name arguments) = ((d.padTo align line).addPayload v line, none) := by
  cases directive with
  | segment k => cases hv
  | ignored => cases hv
  | align => cases hv
  | bytes | halves | words | space | text => simp only [apply, hname, applyData, hcurrent, hv]

/-- Nothing is to be filled up at the start of a segment. -/
theorem Draft.padTo_start {d : Draft} {m : Mode} (hcurrent : d.current = .data m 0) (align : UInt32)
    (line : Int) : d.padTo align line = d := by
  simp [padTo, hcurrent]

/-- A source with a segment and a line of data that is as it is. No zeros come before the payload,
whatever its alignment is. -/
theorem Program.parse_data (hname : Directive.ofName? name = some directive)
    (hline : IsBare (name ++ " " ++ arguments)) (harguments : trim arguments = arguments)
    (hv : Draft.payloadOf name arguments (some directive) = .ok (align, v)) :
    Program.parse (".data\n" ++ (name ++ " " ++ arguments)) = .ok (.singleData v) := by
  have hlines : splitOn (ascii '\n') (".data\n" ++ (name ++ " " ++ arguments)) =
      [ofString ".data", name ++ " " ++ arguments] := by
    have hnewline : ofString ".data\n" = ofString ".data" ++ [ascii '\n'] := rfl
    rw [hnewline, List.append_assoc, splitOn_append (by decide), List.singleton_append, splitOn,
      if_pos rfl, splitOn_of_notMem hline.newline, foldr_consHead, List.append_nil]
  have hopen : Reading.step {} (ofString ".data") 1 =
      { draft := ({} : Draft).openSegment (.data .user) none, last := (1, ".data") } := by
    decide +kernel
  have hreading : Reading.ofSource (".data\n" ++ (name ++ " " ++ arguments)) =
      (Reading.step {} (ofString ".data") 1).step (name ++ " " ++ arguments) 2 := by
    simp only [Reading.ofSource, hlines, List.zipIdx_cons, List.zipIdx_nil, List.foldl_cons,
      List.foldl_nil, Nat.reduceAdd]
  have happly := Draft.apply_payload (d := ({} : Draft).openSegment (.data .user) none) rfl
    hname hv (2 : Nat)
  rw [Draft.padTo_start rfl] at happly
  simp only [Program.parse, hreading, hopen, Reading.step_bare hline,
    (isDirectiveName_of_ofName? hname).ofText_eq harguments, happly]
  rfl

end Lines

/-! ## Numbers -/

section Numbers

variable {values : List Nat}

theorem isWord_hexes : ∀ w ∈ values.map fun v => "0x" ++ hex 1 v, IsWord w := by
  simp only [List.mem_map, forall_exists_index, and_imp, forall_apply_eq_imp_iff₂]
  intro v _
  exact (isNumeral_hex 1 v).isWord

theorem isPlain_hexList (hne : values ≠ []) :
    IsPlain (Payload.hexList values) ∧ Payload.hexList values ≠ [] :=
  isPlain_join isWord_hexes (by simpa using hne)

theorem readList_hexList {low high : Int} (hne : values ≠ []) (hlow : low ≤ 0)
    (hvalues : ∀ v ∈ values, (v : Int) ≤ high) (hhigh : high < 0x8000000000000000) :
    readList low high (Payload.hexList values) = .ok (values.map Int.ofNat) := by
  obtain ⟨hplain, hnil⟩ := isPlain_hexList hne
  rw [readList, hplain.trim_eq_self, if_neg hnil, Payload.hexList,
    splitOperands_join (fun s hs => (isWord_hexes s hs).isField) (by simpa using hne), mapM_eq_ok,
    List.forall₂_map_left_iff, List.forall₂_map_right_iff, List.forall₂_same]
  intro v hv
  exact readLiteral_hex 1 (by omega) (hvalues v hv) hhigh

/-- Numbers of some bytes are read back if they are in the range and determined by their value. -/
theorem map_readList_hexList {α : Type} {toNat : α → Nat} {ofInt : Int → α} {low high : Int}
    {values : List α} (hne : values ≠ []) (hlow : low ≤ 0) (hhigh : high < 0x8000000000000000)
    (hvalues : ∀ v, (toNat v : Int) ≤ high ∧ ofInt (toNat v) = v) :
    (readList low high (Payload.hexList (values.map toNat))).map (·.map ofInt) = .ok values := by
  have hrange : ∀ n ∈ values.map toNat, (n : Int) ≤ high := by
    intro n hn
    obtain ⟨v, -, rfl⟩ := List.mem_map.1 hn
    exact (hvalues v).1
  rw [readList_hexList (by simpa using hne) hlow hrange hhigh]
  refine map_eq_ok.2 ⟨_, rfl, ?_⟩
  simp [Function.comp_def, hvalues]

theorem readBytes_hexList {values : List UInt8} (hne : values ≠ []) :
    readBytes (Payload.hexList (values.map UInt8.toNat)) = .ok values := by
  refine map_readList_hexList hne (by decide) (by decide) fun v => ⟨?_, byte_ofInt_toNat v⟩
  have hlt := v.toNat_lt
  omega

theorem readHalves_hexList {values : List UInt16} (hne : values ≠ []) :
    readHalves (Payload.hexList (values.map UInt16.toNat)) = .ok values := by
  refine map_readList_hexList hne (by decide) (by decide) fun v => ⟨?_, half_ofInt_toNat v⟩
  have hlt := v.toNat_lt
  omega

theorem readWords_hexList {values : List UInt32} (hne : values ≠ []) :
    readWords (Payload.hexList (values.map UInt32.toNat)) = .ok values := by
  refine map_readList_hexList hne (by decide) (by decide) fun v => ⟨?_, word_ofInt_toNat v⟩
  have hlt := v.toNat_lt
  omega

end Numbers

/-! ## Payloads -/

section Plain

variable {name arguments : ByteString} {directive : Directive} {align : UInt32} {v : Payload}

/-- A line of data whose arguments are plain text. -/
theorem Program.parse_data_plain (hname : Directive.ofName? name = some directive)
    (harguments : IsPlain arguments) (hne : arguments ≠ [])
    (hv : Draft.payloadOf name arguments (some directive) = .ok (align, v)) :
    Program.parse (".data\n" ++ (name ++ " " ++ arguments)) = .ok (.singleData v) := by
  have hword := (isDirectiveName_of_ofName? hname).isWord
  have hplain : IsPlain (name ++ " " ++ arguments) := .append hword harguments hne rfl
  exact parse_data hname (hplain.isBare (by simp [hword.ne_nil])) harguments.trim_eq_self hv

/-- A line of data with numbers. -/
theorem Program.parse_data_hexList {values : List Nat} (hvalues : values ≠ [])
    (hname : Directive.ofName? name = some directive)
    (hv : Draft.payloadOf name (Payload.hexList values) (some directive) = .ok (align, v)) :
    Program.parse (".data\n" ++ (name ++ " " ++ Payload.hexList values)) = .ok (.singleData v) := by
  obtain ⟨hplain, hne⟩ := isPlain_hexList hvalues
  exact parse_data_plain hname hplain hne hv

end Plain

theorem trim_quote (chars : ByteString) : trim (quote chars) = quote chars := by
  refine trim_of_visible ?_ ?_
  · rintro b ⟨⟩
    decide
  · rw [quote_eq, ← List.cons_append, List.getLast?_concat]
    rintro b ⟨⟩
    decide

/-- A line of data with a text. -/
theorem Program.parse_data_quote {name : ByteString} {terminated : Bool}
    (hname : Directive.ofName? name = some (.text terminated)) (chars : ByteString) :
    Program.parse (".data\n" ++ (name ++ " " ++ quote chars)) =
      .ok (.singleData (.text chars terminated 0)) := by
  have hbare := isBare_quote (isDirectiveName_of_ofName? hname).isWord chars
  have hv : Draft.payloadOf name (quote chars) (some (.text terminated)) =
      .ok (1, .text chars terminated 0) := by
    simp only [Draft.payloadOf, unquote?_quote]
  exact parse_data hname hbare (trim_quote chars) hv

/-- A line of data with a number of zeros. -/
theorem Program.parse_data_space {count : UInt32} (hcount : count.toNat < 2 ^ 31) :
    Program.parse (".data\n" ++ (".space" ++ " " ++ natural count.toNat)) =
      .ok (.singleData (.space count)) := by
  have hname : Directive.ofName? ".space" = some .space := rfl
  have hread : readLiteral 0 0x7FFFFFFF (natural count.toNat) = .ok (count.toNat : Int) :=
    readLiteral_decimal (v := count.toNat) (by omega) (by omega) (by decide) (by decide)
  have hv : Draft.payloadOf ".space" (natural count.toNat) (some .space) =
      .ok (1, .space count) := by
    simp only [Draft.payloadOf, hread, word_ofInt_toNat]
  have hword := (isNumeral_natural count.toNat).isWord
  exact parse_data_plain hname hword.isPlain hword.ne_nil hv

/-- A payload that a source can have is read back. -/
theorem Payload.Writable.parse_line {v : Payload} (h : v.Writable) :
    Program.parse (".data\n" ++ v.render) = .ok (.singleData v) := by
  cases v with
  | bytes values stride =>
    obtain ⟨hne, rfl⟩ := h
    change Program.parse (".data\n" ++ (".byte" ++ " " ++ hexList _)) = _
    exact Program.parse_data_hexList (by simpa using hne) rfl
      (map_eq_ok.2 ⟨values, readBytes_hexList hne, rfl⟩)
  | halves values stride =>
    obtain ⟨hne, rfl⟩ := h
    change Program.parse (".data\n" ++ (".half" ++ " " ++ hexList _)) = _
    exact Program.parse_data_hexList (by simpa using hne) rfl
      (map_eq_ok.2 ⟨values, readHalves_hexList hne, rfl⟩)
  | words values stride =>
    obtain ⟨hne, rfl⟩ := h
    change Program.parse (".data\n" ++ (".word" ++ " " ++ hexList _)) = _
    exact Program.parse_data_hexList (by simpa using hne) rfl
      (map_eq_ok.2 ⟨values, readWords_hexList hne, rfl⟩)
  | text chars terminated align =>
    obtain rfl : align = 0 := h
    cases terminated with
    | true =>
      change Program.parse (".data\n" ++ (".asciiz" ++ " " ++ quote chars)) = _
      exact Program.parse_data_quote rfl chars
    | false =>
      change Program.parse (".data\n" ++ (".ascii" ++ " " ++ quote chars)) = _
      exact Program.parse_data_quote rfl chars
  | space count =>
    change Program.parse (".data\n" ++ (".space" ++ " " ++ natural count.toNat)) = _
    exact Program.parse_data_space h

/-- **Payloads read back.** The payloads that a source can have are the lists of numbers that are not
empty and have no strides, the texts that are not filled up, and fewer than `2 ^ 31` zeros. Each of
them is written as a line of data, and a source of a segment directive and this line is read as a
program with one data segment, whose one entry is the payload. A text may have any bytes. -/
theorem Program.parse_render_payload (v : Payload) :
    (v.Writable ↔ ∃ src p m, Program.parse src = .ok p ∧ ∃ s ∈ p.data m, ∃ e ∈ s.entries,
        e.item = v) ∧
      (v.Writable → Program.parse (".data\n" ++ v.render) = .ok (.singleData v)) := by
  refine ⟨⟨fun h => ?_, ?_⟩, fun h => h.parse_line⟩
  · exact ⟨_, _, .user, h.parse_line, _, List.mem_singleton.2 rfl, _, List.mem_singleton.2 rfl, rfl⟩
  · rintro ⟨src, p, m, hparse, s, hs, e, he, rfl⟩
    exact Program.writable_of_parse hparse hs he

/-- A text with all that the scanners look for, and with bytes that are no characters. -/
def awkwardText : ByteString :=
  ofString "# x: .word 1, 'a\" \\\" \n\t" ++ [0, 0x7F, 0xFF, 0xC3] ++ ofString "é\u2028\u00A0"

/-- Escapes stand for quotation marks, backslashes, what cannot be printed and stray bytes; the rest is
left as it is. -/
theorem Program.parse_render_payload_awkward :
    (Payload.text awkwardText true 0).Writable ∧
      (Payload.text awkwardText true 0).render =
        ".asciiz \"# x: .word 1, 'a\\\" \\\\\\\" \\n\\t\\x00\\x7f\\xff\\xc3é\\u2028\\u00a0\"" ∧
      Program.parse (".data\n" ++ (Payload.text awkwardText true 0).render) =
        .ok (.singleData (.text awkwardText true 0)) :=
  ⟨by decide, by decide +kernel, (Program.parse_render_payload _).2 (by decide)⟩

end MipsAssembler
