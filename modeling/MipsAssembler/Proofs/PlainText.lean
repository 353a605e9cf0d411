import MipsAssembler.Proofs.Glyphs
import MipsAssembler.Proofs.Outcome
import MipsAssembler.Source.Draft

/-!
# Plain text

A source passes several scanners before anything is read from it: it is cut into lines, margins,
comments and blanks are taken away, labels and operands are split off. Plain text passes them all
unchanged. It is made of words (`IsWord`), which are visible ASCII without commas, colons, quotation
marks and comment marks, and has spaces and commas between them (`IsPlain`). `IsBare` is what counts
of a line: that it passes the scanners which come before its statement is read. What the last of them
does to any line at all is the relation `Labelled` (`splitLabels_eq_ok`).

`Program.parse_plain` reads a source of one plain line: the program has one entry, for the instruction
on the line.
-/

namespace MipsAssembler

namespace ByteString

/-! ## Bytes -/

/-- What is checked for all numbers below 256 holds for all bytes. -/
theorem forall_byte {P : UInt8 → Prop} (h : ∀ n < 256, P (UInt8.ofNat n)) (b : UInt8) : P b := by
  simpa using h b.toNat b.toNat_lt

/-- Is `b` visible, and no mark that the scanners look for? -/
def isWordByte (b : UInt8) : Bool :=
  0x21 ≤ b && b ≤ 0x7E && !isQuotationMark b && b != ascii ',' && b != ascii ':' && b != ascii '#'

/-- Is `b` part of a word or between words? -/
def isPlainByte (b : UInt8) : Bool := isWordByte b || b == ascii ' ' || b == ascii ','

variable {b : UInt8} {s : ByteString}

theorem isPlainByte_of_isWordByte (h : isWordByte b = true) : isPlainByte b = true := by
  simp [isPlainByte, h]

theorem isVisible_of_isWordByte (h : isWordByte b = true) : isVisible b = true := by
  simp only [isWordByte, Bool.and_eq_true] at h
  simpa [isVisible] using h.1.1.1.1

theorem isMargin_of_isWordByte : isWordByte b = true → isMargin b = false :=
  forall_byte (P := fun b => isWordByte b = true → isMargin b = false) (by decide +kernel) b

theorem isGap_of_isWordByte (h : isWordByte b = true) : isGap b = false := by
  have hmargin := isMargin_of_isWordByte h
  simp only [isMargin, Bool.or_eq_false_iff] at hmargin
  exact hmargin.1.1

theorem ne_comma_of_isWordByte (h : isWordByte b = true) : b ≠ ascii ',' := by
  simp only [isWordByte, Bool.and_eq_true, bne_iff_ne] at h
  exact h.1.1.2

theorem isQuotationMark_of_isPlainByte : isPlainByte b = true → isQuotationMark b = false :=
  forall_byte (P := fun b => isPlainByte b = true → isQuotationMark b = false) (by decide +kernel) b

theorem ne_marks_of_isPlainByte : isPlainByte b = true →
    b ≠ ascii '#' ∧ b ≠ ascii ':' ∧ b ≠ ascii '\n' :=
  forall_byte (P := fun b => isPlainByte b = true →
    b ≠ ascii '#' ∧ b ≠ ascii ':' ∧ b ≠ ascii '\n') (by decide +kernel) b

/-! ## Ends -/

/-- Plain text: words with spaces and commas between them. -/
structure IsPlain (s : ByteString) : Prop where
  bytes : ∀ b ∈ s, isPlainByte b = true
  first : ∀ b ∈ s.head?, isWordByte b = true
  last : ∀ b ∈ s.getLast?, isWordByte b = true

namespace IsPlain

theorem trim_eq_self (h : IsPlain s) : trim s = s :=
  trim_of_visible (fun b hb => isVisible_of_isWordByte (h.first b hb))
    fun b hb => isVisible_of_isWordByte (h.last b hb)

theorem strip_eq_self (h : IsPlain s) : strip isMargin s = s :=
  dropWhile_ends_eq_self (fun b hb => isMargin_of_isWordByte (h.first b hb))
    fun b hb => isMargin_of_isWordByte (h.last b hb)

end IsPlain

/-! ## Cutting -/

theorem cutAt_of_forall {p : UInt8 → Bool} (h : ∀ b ∈ s, p b = false) : cutAt p s = (s, []) := by
  induction s with
  | nil => rfl
  | cons b s ih =>
    rw [cutAt, h b (by simp), ih fun b' hb' => h b' (by simp [hb'])]
    rfl

theorem cutAt_append {p : UInt8 → Bool} (h : ∀ b ∈ s, p b = false) (hb : p b = true)
    (rest : ByteString) : cutAt p (s ++ b :: rest) = (s, rest) := by
  induction s with
  | nil => simp [cutAt, hb]
  | cons b' s ih =>
    rw [List.cons_append, cutAt, h b' (by simp), ih fun c hc => h c (by simp [hc])]
    rfl

theorem foldr_consHead (s piece : ByteString) (pieces : List ByteString) :
    s.foldr consHead (piece :: pieces) = (s ++ piece) :: pieces := by
  induction s with
  | nil => rfl
  | cons b s ih => rw [List.foldr_cons, ih, consHead, List.cons_append]

theorem length_consHead (b : UInt8) {pieces : List ByteString} (h : pieces ≠ []) :
    (consHead b pieces).length = pieces.length := by
  obtain ⟨piece, pieces, rfl⟩ := List.exists_cons_of_ne_nil h
  rfl

theorem join_consHead (sep : ByteString) (b : UInt8) (pieces : List ByteString) :
    join sep (consHead b pieces) = b :: join sep pieces := by
  cases pieces with
  | nil => simp [consHead, join]
  | cons piece pieces => cases pieces <;> simp [consHead, join]

theorem join_cons {pieces : List ByteString} (sep piece : ByteString) (h : pieces ≠ []) :
    join sep (piece :: pieces) = piece ++ sep ++ join sep pieces := by
  obtain ⟨next, pieces, rfl⟩ := List.exists_cons_of_ne_nil h
  exact List.intercalate_cons_cons ..

/-- Bytes other than the separator go to the first piece. -/
theorem splitOn_append {sep : UInt8} (h : sep ∉ s) (t : ByteString) :
    splitOn sep (s ++ t) = s.foldr consHead (splitOn sep t) := by
  induction s with
  | nil => rfl
  | cons b s ih =>
    rw [List.mem_cons, not_or] at h
    rw [List.cons_append, splitOn, if_neg (Ne.symm h.1), ih h.2, List.foldr_cons]

theorem splitOn_of_notMem {sep : UInt8} (h : sep ∉ s) : splitOn sep s = [s] := by
  have hsplit := splitOn_append h []
  rwa [List.append_nil, splitOn, foldr_consHead, List.append_nil] at hsplit

theorem splitOn_ne_nil (sep : UInt8) (s : ByteString) : splitOn sep s ≠ [] := by
  cases s with
  | nil => exact List.cons_ne_nil _ _
  | cons b s =>
    rw [splitOn]
    split
    · exact List.cons_ne_nil _ _
    · cases splitOn sep s <;> exact List.cons_ne_nil _ _

/-- The pieces of a text are put together again. -/
theorem join_splitOn (sep : UInt8) (s : ByteString) : join [sep] (splitOn sep s) = s := by
  induction s with
  | nil => rfl
  | cons b s ih =>
    rw [splitOn]
    split
    · rename_i hb
      rw [join_cons _ _ (splitOn_ne_nil sep s), ih, hb]
      rfl
    · rw [join_consHead, ih]

/-- There is no separator in a piece. -/
theorem notMem_of_mem_splitOn {sep : UInt8} {piece : ByteString} (h : piece ∈ splitOn sep s) :
    sep ∉ piece := by
  induction s generalizing piece with
  | nil =>
    rw [splitOn, List.mem_singleton] at h
    rw [h]
    exact List.not_mem_nil
  | cons b s ih =>
    obtain ⟨first, pieces, hpieces⟩ := List.exists_cons_of_ne_nil (splitOn_ne_nil sep s)
    rw [hpieces] at ih
    rw [splitOn, hpieces] at h
    split at h
    · rcases List.mem_cons.1 h with rfl | h
      · exact List.not_mem_nil
      · exact ih h
    · rename_i hb
      rcases List.mem_cons.1 h with rfl | h
      · rw [List.mem_cons, not_or]
        exact ⟨Ne.symm hb, ih (by simp)⟩
      · exact ih (by simp [h])

/-- Pieces that are put together are taken apart again. -/
theorem splitOn_join {sep : UInt8} {pieces : List ByteString} (h : ∀ piece ∈ pieces, sep ∉ piece)
    (hne : pieces ≠ []) : splitOn sep (join [sep] pieces) = pieces := by
  induction pieces with
  | nil => exact absurd rfl hne
  | cons piece pieces ih =>
    rw [List.forall_mem_cons] at h
    cases pieces with
    | nil => rw [join, List.intercalate_singleton, splitOn_of_notMem h.1]
    | cons next pieces =>
      have hnext : next :: pieces ≠ [] := List.cons_ne_nil _ _
      rw [join_cons _ _ hnext, List.append_assoc, splitOn_append h.1, List.singleton_append, splitOn,
        if_pos rfl, ih h.2 hnext, foldr_consHead, List.append_nil]

/-! ## Words -/

/-- A word: an operand or a mnemonic. -/
structure IsWord (s : ByteString) : Prop where
  ne_nil : s ≠ []
  bytes : ∀ b ∈ s, isWordByte b = true

theorem IsWord.isPlain (h : IsWord s) : IsPlain s where
  bytes b hb := isPlainByte_of_isWordByte (h.bytes b hb)
  first b hb := h.bytes b (List.mem_of_mem_head? hb)
  last b hb := h.bytes b (List.mem_of_mem_getLast? hb)

theorem IsWord.append {t : ByteString} (h : IsWord s) (ht : IsWord t) : IsWord (s ++ t) where
  ne_nil := by simp [h.ne_nil]
  bytes b hb := (List.mem_append.1 hb).elim (h.bytes b) (ht.bytes b)

/-- Plain text goes on after a space or a comma and a space. -/
theorem IsPlain.append {sep t : ByteString} (h : IsWord s) (ht : IsPlain t) (hne : t ≠ [])
    (hsep : sep.all isPlainByte = true) : IsPlain (s ++ sep ++ t) where
  bytes b hb := by
    simp only [List.mem_append] at hb
    rcases hb with (hb | hb) | hb
    · exact h.isPlain.bytes b hb
    · exact List.all_eq_true.1 hsep b hb
    · exact ht.bytes b hb
  first b hb := by
    obtain ⟨c, s, rfl⟩ := List.exists_cons_of_ne_nil h.ne_nil
    exact h.isPlain.first b hb
  last b hb := by
    rw [List.getLast?_append, List.getLast?_eq_some_getLast hne, Option.some_or] at hb
    exact ht.last b (by rwa [List.getLast?_eq_some_getLast hne])

/-- Words with commas and spaces between them are plain text. -/
theorem isPlain_join {words : List ByteString} (h : ∀ s ∈ words, IsWord s) (hne : words ≠ []) :
    IsPlain (join ", " words) ∧ join ", " words ≠ [] := by
  induction words with
  | nil => exact absurd rfl hne
  | cons s words ih =>
    have hs := h s (by simp)
    cases words with
    | nil =>
      rw [join, List.intercalate_singleton]
      exact ⟨hs.isPlain, hs.ne_nil⟩
    | cons t words =>
      obtain ⟨hplain, hrest⟩ := ih (fun u hu => h u (by simp [hu])) (by simp)
      rw [join, List.intercalate_cons_cons]
      exact ⟨.append hs hplain hrest rfl, by simp [hs.ne_nil]⟩

end ByteString

open ByteString Outcome

variable {s : ByteString}

/-! ## Scanners -/

theorem stripCommentFrom_append (h : ∀ b ∈ s, isPlainByte b = true) (rest : ByteString) :
    stripCommentFrom .outside (s ++ rest) = s ++ stripCommentFrom .outside rest := by
  induction s with
  | nil => rfl
  | cons b s ih =>
    have hb := h b (by simp)
    rw [List.cons_append, stripCommentFrom, if_neg fun hc => (ne_marks_of_isPlainByte hb).1 hc.2,
      Quoting.step, isQuotationMark_of_isPlainByte hb]
    exact congrArg _ (ih fun b' hb' => h b' (by simp [hb']))

/-- A line that is as it is when its statement is read: there is nothing to be taken away before, and
it has no labels. -/
structure ByteString.IsBare (s : ByteString) : Prop where
  ne_nil : s ≠ []
  newline : ascii '\n' ∉ s
  strip_eq : strip isMargin s = s
  stripComment_eq : stripComment s = s
  trim_eq : trim s = s
  splitLabels_eq : splitLabels s = .ok ([], s)

theorem ByteString.IsPlain.isBare (h : IsPlain s) (hne : s ≠ []) : IsBare s where
  ne_nil := hne
  newline hmem := (ne_marks_of_isPlainByte (h.bytes _ hmem)).2.2 rfl
  strip_eq := h.strip_eq_self
  stripComment_eq := by
    have hcomment := stripCommentFrom_append h.bytes []
    rwa [List.append_nil, stripCommentFrom, List.append_nil] at hcomment
  trim_eq := h.trim_eq_self
  splitLabels_eq := by
    have hcolon : ascii ':' ∉ s := fun hmem => (ne_marks_of_isPlainByte (h.bytes _ hmem)).2.1 rfl
    rw [splitLabels, splitOn_of_notMem hcolon]
    rfl

/-! ## Labels -/

/-- The labels at the start of a line, in order, and the statement after them. A label is a name before
a colon, with or without blanks around it; the line goes on after the colon and further blanks. A
colon after anything else is part of the statement, and then a gap or a quotation mark is before it. -/
inductive Labelled : ByteString → List ByteString → ByteString → Prop
  | statement {text : ByteString}
    (colon : ∀ first after, ascii ':' ∉ first → text = first ++ ascii ':' :: after →
      isName (trim first) = false ∧ isOperandText first = true) : Labelled text [] text
  | label {first after rest : ByteString} {labels : List ByteString} (colon : ascii ':' ∉ first)
    (name : isName (trim first) = true) (next : Labelled (trimStart after) labels rest) :
    Labelled (first ++ ascii ':' :: after) (trim first :: labels) rest

section Labels

variable {first after rest : ByteString} {pieces labels : List ByteString}

/-- What stands before the first colon of a line, and after it. -/
theorem append_colon_inj {first' after' : ByteString} (hfirst : ascii ':' ∉ first)
    (hfirst' : ascii ':' ∉ first')
    (h : first ++ ascii ':' :: after = first' ++ ascii ':' :: after') :
    first = first' ∧ after = after' := by
  have hcut : ∀ {first after : ByteString}, ascii ':' ∉ first →
      cutAt (· == ascii ':') (first ++ ascii ':' :: after) = (first, after) := by
    intro first after hfirst
    refine cutAt_append (fun b hb => beq_eq_false_iff_ne.2 ?_) rfl after
    rintro rfl
    exact hfirst hb
  exact Prod.mk.inj ((hcut hfirst).symm.trans ((congrArg _ h).trans (hcut hfirst')))

theorem labelled_of_notMem (h : ascii ':' ∉ first) :
    Labelled first labels rest ↔ labels = [] ∧ rest = first := by
  constructor
  · intro hl
    cases hl with
    | statement _ => exact ⟨rfl, rfl⟩
    | label _ _ _ => simp at h
  · rintro ⟨rfl, rfl⟩
    refine .statement fun first' after' _ hsplit => ?_
    rw [hsplit] at h
    simp at h

theorem labelled_append (h : ascii ':' ∉ first) :
    Labelled (first ++ ascii ':' :: after) labels rest ↔
      if isName (trim first) then
        ∃ more, labels = trim first :: more ∧ Labelled (trimStart after) more rest
      else isOperandText first = true ∧ labels = [] ∧ rest = first ++ ascii ':' :: after := by
  constructor
  · intro hl
    generalize hline : first ++ ascii ':' :: after = line at hl
    cases hl with
    | statement colon =>
      obtain ⟨hname, hoperand⟩ := colon first after h hline.symm
      rw [if_neg (by simp [hname])]
      exact ⟨hoperand, rfl, rfl⟩
    | label colon name next =>
      obtain ⟨rfl, rfl⟩ := append_colon_inj h colon hline
      rw [if_pos name]
      exact ⟨_, rfl, next⟩
  · split <;> rename_i hname
    · rintro ⟨more, rfl, hmore⟩
      exact .label h hname hmore
    · rintro ⟨hoperand, rfl, rfl⟩
      refine .statement fun first' after' hfirst' hsplit => ?_
      obtain ⟨rfl, -⟩ := append_colon_inj h hfirst' hsplit
      exact ⟨by simpa using hname, hoperand⟩

theorem trimStart_join (first : ByteString) (pieces : List ByteString) :
    trimStart (join ":" (first :: pieces)) = join ":" (trimStart first :: pieces) := by
  cases pieces with
  | nil => simp [join]
  | cons next pieces =>
    have hnext : next :: pieces ≠ [] := List.cons_ne_nil _ _
    rw [join_cons _ _ hnext, join_cons _ _ hnext, List.append_assoc, List.append_assoc]
    exact trimStart_append_cons (by decide) (by decide) first _

/-- A line that is cut at its colons is read from left to right. -/
theorem splitLabelsFrom_eq_ok (hfirst : ascii ':' ∉ first)
    (hpieces : ∀ piece ∈ pieces, ascii ':' ∉ piece) :
    splitLabelsFrom first pieces = .ok (labels, rest) ↔
      Labelled (join ":" (first :: pieces)) labels rest := by
  induction pieces generalizing first labels with
  | nil =>
    have hjoin : join ":" [first] = first := List.intercalate_singleton ..
    rw [hjoin, labelled_of_notMem hfirst, splitLabelsFrom, Except.ok.injEq, Prod.mk.injEq,
      @eq_comm _ [], @eq_comm _ first]
  | cons next pieces ih =>
    rw [List.forall_mem_cons] at hpieces
    have hnext : ascii ':' ∉ trimStart next := fun hmem =>
      hpieces.1 ((trimStart_suffix next).subset hmem)
    have hjoin : join ":" (first :: next :: pieces) =
        first ++ ascii ':' :: join ":" (next :: pieces) := by
      rw [join_cons _ _ (List.cons_ne_nil _ _), List.append_assoc]
      rfl
    rw [hjoin, labelled_append hfirst, trimStart_join]
    simp only [splitLabelsFrom]
    split
    · rw [map_eq_ok]
      constructor
      · rintro ⟨⟨more, rest'⟩, hmore, heq⟩
        obtain ⟨rfl, rfl⟩ := Prod.mk.inj heq
        exact ⟨more, rfl, (ih hnext hpieces.2).1 hmore⟩
      · rintro ⟨more, rfl, hmore⟩
        exact ⟨(more, rest), (ih hnext hpieces.2).2 hmore, rfl⟩
    · split <;> rename_i hoperand
      · rw [hjoin, Except.ok.injEq, Prod.mk.injEq, @eq_comm _ [], @eq_comm _ _ rest]
        exact (and_iff_right hoperand).symm
      · exact ⟨nofun, fun h => absurd h.1 hoperand⟩

/-- The labels and the statement of a line account for all of it. -/
theorem splitLabels_eq_ok {line : ByteString} :
    splitLabels line = .ok (labels, rest) ↔ Labelled line labels rest := by
  obtain ⟨first, pieces, hsplit⟩ := List.exists_cons_of_ne_nil (splitOn_ne_nil (ascii ':') line)
  have hcolon : ∀ piece ∈ first :: pieces, ascii ':' ∉ piece := fun piece hpiece =>
    notMem_of_mem_splitOn (hsplit ▸ hpiece)
  rw [List.forall_mem_cons] at hcolon
  have hjoin := join_splitOn (ascii ':') line
  rw [hsplit] at hjoin
  rw [splitLabels, hsplit]
  exact (splitLabelsFrom_eq_ok hcolon.1 hcolon.2).trans (iff_of_eq (by rw [← hjoin]; rfl))

theorem Labelled.isName {line : ByteString} (h : Labelled line labels rest) :
    ∀ n ∈ labels, isName n = true := by
  induction h with
  | statement colon => simp
  | label colon name next ih => exact List.forall_mem_cons.2 ⟨name, ih⟩

end Labels

/-! ## A source of one line -/

/-- The program of a source with one instruction: one text segment with one entry, which stands on
the first line and has no labels. -/
def Program.single (inst : Instruction) : Program where
  userText := [{ start := some {}, entries := [{ place := none, item := inst, line := 1 }] }]

/-- A bare line is a statement. -/
theorem Reading.step_bare (h : IsBare s) (r : Reading) (number : Nat) :
    r.step s number =
      { draft := (r.draft.apply number (.ofText s)).1
        errors := r.errors ++ (r.draft.apply number (.ofText s)).2.toList.map fun e =>
          { line := number, contents := s, error := e }
        last := (number, s) } := by
  have hline : r.draft.applyLine number s = r.draft.apply number (.ofText s) := by
    rw [Draft.applyLine, h.splitLabels_eq]
    simp only [List.append_nil, if_neg h.ne_nil]
  simp only [Reading.step, h.strip_eq, h.stripComment_eq, h.trim_eq, if_neg h.ne_nil, hline]

/-- A source of one plain line is read as an instruction. -/
theorem Reading.ofSource_plain (h : IsPlain s) (hne : s ≠ [])
    (hstart : s.head? ≠ some (ascii '.')) :
    Reading.ofSource s =
      { draft := (Draft.applyInstruction s 1 {}).1
        errors := (Draft.applyInstruction s 1 {}).2.toList.map fun e =>
          { line := 1, contents := s, error := e }
        last := (1, s) } := by
  have hbare := h.isBare hne
  have hreading : Reading.ofSource s = Reading.step {} s 1 := by
    rw [Reading.ofSource, splitOn_of_notMem hbare.newline]
    rfl
  rw [hreading, Reading.step_bare hbare, Statement.ofText, if_neg hstart]
  rfl

/-- A source with an instruction on a plain line is read as a program with one entry. -/
theorem Program.parse_plain {inst : Instruction} (h : IsPlain s) (hne : s ≠ [])
    (hstart : s.head? ≠ some (ascii '.')) (hparse : Instruction.parse s = .ok inst) :
    Program.parse s = .ok (Program.single inst) := by
  rw [Program.parse, Reading.ofSource_plain h hne hstart]
  simp only [Draft.applyInstruction, hparse]
  rfl

/-- What is wrong with the instruction is the only error of the source. -/
theorem Program.parse_plain_error {e : SourceError} (h : IsPlain s) (hne : s ≠ [])
    (hstart : s.head? ≠ some (ascii '.')) (hparse : Instruction.parse s = .error e) :
    Program.parse s = .error [{ line := 1, contents := s, error := e }] := by
  rw [Program.parse, Reading.ofSource_plain h hne hstart]
  simp only [Draft.applyInstruction, hparse]
  rfl

end MipsAssembler
