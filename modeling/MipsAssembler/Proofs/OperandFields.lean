import Mathlib.Data.List.Infix
import Mathlib.Logic.Relation
import MipsAssembler.Proofs.PlainText

/-!
# The fields of an operand text

An operand text is cut at its commas and freed of its spaces and tabs, except between quotation marks.
What is between quotation marks is said here without a scanner: a text is the beginning of a quotation
unless every quotation that begins in it also ends there (`QuotesClosed`), and a byte is outside if the
text before it is closed in this sense. The scanner agrees (`quotesClosed_iff`).

* The number of fields is that of the commas outside quotation marks, and one
  (`length_splitOperandsFrom`).
* The fields with commas between them are the text without its gaps (`join_splitOperandsFrom`).
* Gaps outside quotation marks can be put in and left out (`splitOperands_respaced`).
* Texts that are whole fields are found again when they are put together (`splitOperands_join`).

Each is proved for a scan that begins in any state, byte by byte, and `splitOperands_fields` is what they
say of a whole text.
-/

namespace MipsAssembler

open ByteString

/-! ## Quotations -/

/-- What can stand between two marks of a kind: a backslash takes the next byte with it, and the mark
does not stand without one. -/
inductive IsQuotable (mark : UInt8) : ByteString → Prop
  | nil : IsQuotable mark []
  | byte {b : UInt8} {s : ByteString} (hbackslash : b ≠ ascii '\\') (hmark : b ≠ mark)
    (h : IsQuotable mark s) : IsQuotable mark (b :: s)
  | escape {b : UInt8} {s : ByteString} (h : IsQuotable mark s) :
    IsQuotable mark (ascii '\\' :: b :: s)

/-- Text in which every quotation that begins also ends. -/
inductive QuotesClosed : ByteString → Prop
  | nil : QuotesClosed []
  | byte {b : UInt8} {s : ByteString} (hmark : isQuotationMark b = false) (h : QuotesClosed s) :
    QuotesClosed (b :: s)
  | quotation {mark : UInt8} {body s : ByteString} (hmark : isQuotationMark mark = true)
    (hbody : IsQuotable mark body) (h : QuotesClosed s) : QuotesClosed (mark :: (body ++ mark :: s))

/-- Text that goes on to the end of a quotation and is closed after it. -/
def EndsQuotation (mark : UInt8) (s : ByteString) : Prop :=
  ∃ body rest, s = body ++ mark :: rest ∧ IsQuotable mark body ∧ QuotesClosed rest

section Scan

variable {mark b : UInt8} {s : ByteString}

theorem ne_backslash_of_isQuotationMark (h : isQuotationMark b = true) : b ≠ ascii '\\' := by
  rintro rfl
  exact absurd h (by decide)

theorem isQuotationMark_of_isGap (h : isGap b = true) : isQuotationMark b = false := by
  simp only [isGap, Bool.or_eq_true, beq_iff_eq] at h
  rcases h with rfl | rfl <;> decide

theorem IsQuotable.foldl_step (h : IsQuotable mark s) :
    s.foldl Quoting.step (.inside mark) = .inside mark := by
  induction h with
  | nil => rfl
  | byte hbackslash hmark _ ih => rw [List.foldl_cons, Quoting.step, if_neg hbackslash, if_neg hmark, ih]
  | escape _ ih => rw [List.foldl_cons, Quoting.step, if_pos rfl, List.foldl_cons, Quoting.step, ih]

theorem QuotesClosed.foldl_step (h : QuotesClosed s) : s.foldl Quoting.step .outside = .outside := by
  induction h with
  | nil => rfl
  | byte hmark _ ih =>
    rw [List.foldl_cons, Quoting.step, if_neg (by simp [hmark]), ih]
  | quotation hmark hbody _ ih =>
    rw [List.foldl_cons, Quoting.step, if_pos hmark, List.foldl_append, hbody.foldl_step,
      List.foldl_cons, Quoting.step, if_neg (ne_backslash_of_isQuotationMark hmark), if_pos rfl, ih]

/-- A scan that ends outside quotation marks has closed what was open when it began. -/
theorem closes_of_foldl_step (s : ByteString) :
    (s.foldl Quoting.step .outside = .outside → QuotesClosed s) ∧
    ∀ mark, isQuotationMark mark = true →
      (s.foldl Quoting.step (.inside mark) = .outside → EndsQuotation mark s) ∧
      (s.foldl Quoting.step (.escaped mark) = .outside → ∃ b t, s = b :: t ∧ EndsQuotation mark t) := by
  induction s with
  | nil => exact ⟨fun _ => .nil, fun mark _ => ⟨fun h => (by cases h), fun h => (by cases h)⟩⟩
  | cons b s ih =>
    obtain ⟨houtside, hopen⟩ := ih
    refine ⟨fun h => ?_, fun mark hmark => ⟨fun h => ?_, fun h => ⟨b, s, rfl, (hopen mark hmark).1 h⟩⟩⟩
    · rw [List.foldl_cons, Quoting.step] at h
      split at h <;> rename_i hb
      · obtain ⟨body, rest, rfl, hbody, hrest⟩ := (hopen b hb).1 h
        exact .quotation hb hbody hrest
      · exact .byte (by simpa using hb) (houtside h)
    · rw [List.foldl_cons, Quoting.step] at h
      split at h <;> rename_i hbackslash
      · obtain ⟨c, t, rfl, body, rest, rfl, hbody, hrest⟩ := (hopen mark hmark).2 h
        exact ⟨b :: c :: body, rest, rfl, hbackslash ▸ .escape hbody, hrest⟩
      split at h <;> rename_i hb
      · exact ⟨[], s, by rw [hb, List.nil_append], .nil, houtside h⟩
      · obtain ⟨body, rest, rfl, hbody, hrest⟩ := (hopen mark hmark).1 h
        exact ⟨b :: body, rest, rfl, .byte hbackslash hb hbody, hrest⟩

/-- The scanner is outside quotation marks exactly after closed texts. -/
theorem quotesClosed_iff : QuotesClosed s ↔ s.foldl Quoting.step .outside = .outside :=
  ⟨QuotesClosed.foldl_step, (closes_of_foldl_step s).1⟩

instance : DecidablePred QuotesClosed := fun _ => decidable_of_iff _ quotesClosed_iff.symm

end Scan

/-! ## Bytes outside quotation marks -/

/-- The bytes of a text, each with what stands before it. -/
def inContext (s : ByteString) : List (ByteString × UInt8) := s.inits.zip s

/-- Does the byte satisfy `p`, and stand outside quotation marks? -/
def isUnquoted (p : UInt8 → Bool) (x : ByteString × UInt8) : Bool := p x.2 && decide (QuotesClosed x.1)

/-- The number of bytes outside quotation marks that satisfy `p`. -/
def unquotedCount (p : UInt8 → Bool) (s : ByteString) : Nat := (inContext s).countP (isUnquoted p)

/-- A text without the bytes outside quotation marks that satisfy `p`. -/
def dropUnquoted (p : UInt8 → Bool) (s : ByteString) : ByteString :=
  ((inContext s).filter (!isUnquoted p ·)).map Prod.snd

/-- Is `b` a comma? -/
def isComma (b : UInt8) : Bool := b == ascii ','

/-- Does the byte satisfy `p`, and does a scan that begins in the state `q` reach it outside quotation
marks? -/
def isUnquotedFrom (q : Quoting) (p : UInt8 → Bool) (x : ByteString × UInt8) : Bool :=
  p x.2 && decide (x.1.foldl Quoting.step q = .outside)

theorem isUnquotedFrom_outside (p : UInt8 → Bool) : isUnquotedFrom .outside p = isUnquoted p := by
  funext x
  simp only [isUnquotedFrom, isUnquoted, quotesClosed_iff]

theorem inContext_cons (b : UInt8) (s : ByteString) :
    inContext (b :: s) = ([], b) :: (inContext s).map fun x => (b :: x.1, x.2) := by
  rw [inContext, List.inits_cons, List.zip_cons_cons, List.zip_map_left]
  rfl

section Context

variable (q : Quoting) (p : UInt8 → Bool) (b : UInt8) (s : ByteString)

theorem isUnquotedFrom_nil :
    isUnquotedFrom q p ([], b) = decide (q = .outside ∧ p b = true) := by
  rw [Bool.eq_iff_iff, decide_eq_true_eq, isUnquotedFrom, Bool.and_eq_true, decide_eq_true_eq]
  exact and_comm

/-- Before the second byte the scan is where the first one takes it. -/
theorem isUnquotedFrom_comp :
    (isUnquotedFrom q p ∘ fun x => (b :: x.1, x.2)) = isUnquotedFrom (q.step b) p := rfl

theorem countP_inContext_cons :
    (inContext (b :: s)).countP (isUnquotedFrom q p) =
      (inContext s).countP (isUnquotedFrom (q.step b) p) +
        if q = .outside ∧ p b = true then 1 else 0 := by
  rw [inContext_cons, List.countP_cons, List.countP_map, isUnquotedFrom_comp, isUnquotedFrom_nil]
  simp only [decide_eq_true_eq]

theorem filter_inContext_cons :
    ((inContext (b :: s)).filter (!isUnquotedFrom q p ·)).map Prod.snd =
      (if q = .outside ∧ p b = true then [] else [b]) ++
        ((inContext s).filter (!isUnquotedFrom (q.step b) p ·)).map Prod.snd := by
  have hrest : (((inContext s).map fun x => (b :: x.1, x.2)).filter
      (!isUnquotedFrom q p ·)).map Prod.snd =
        ((inContext s).filter (!isUnquotedFrom (q.step b) p ·)).map Prod.snd := by
    rw [List.filter_map, List.map_map]
    rfl
  rw [inContext_cons, List.filter_cons, isUnquotedFrom_nil, ← hrest]
  by_cases h : q = .outside ∧ p b = true
  · simp [h]
  · simp [h]

end Context

/-! ## Splitting, byte by byte -/

theorem Quoting.step_comma : Quoting.outside.step (ascii ',') = .outside := by decide

theorem Quoting.step_gap {b : UInt8} (h : isGap b = true) : Quoting.outside.step b = .outside := by
  rw [Quoting.step, isQuotationMark_of_isGap h]
  rfl

theorem isComma_of_isGap {b : UInt8} (h : isGap b = true) : isComma b = false := by
  simp only [isGap, Bool.or_eq_true, beq_iff_eq] at h
  rcases h with rfl | rfl <;> decide

section Split

variable (q : Quoting) (s : ByteString)

/-- Each comma outside quotation marks begins a further field. -/
theorem length_splitOperandsFrom :
    (splitOperandsFrom q s).length = (inContext s).countP (isUnquotedFrom q isComma) + 1 := by
  induction s generalizing q with
  | nil => rfl
  | cons b s ih =>
    rw [splitOperandsFrom, countP_inContext_cons]
    split <;> rename_i hcomma
    · obtain ⟨rfl, rfl⟩ := hcomma
      rw [List.length_cons, ih, Quoting.step_comma, if_pos ⟨rfl, rfl⟩]
    have hnot : ¬(q = .outside ∧ isComma b = true) := by simpa [isComma] using hcomma
    rw [if_neg hnot, Nat.add_zero]
    split <;> rename_i hgap
    · obtain ⟨rfl, hgap⟩ := hgap
      rw [ih, Quoting.step_gap hgap]
    · rw [length_consHead _ (List.ne_nil_of_length_eq_add_one (ih _)), ih]

theorem splitOperandsFrom_ne_nil : splitOperandsFrom q s ≠ [] :=
  List.ne_nil_of_length_eq_add_one (length_splitOperandsFrom q s)

/-- What is lost of a text when it is split are its commas and gaps outside quotation marks. -/
theorem join_splitOperandsFrom :
    join "," (splitOperandsFrom q s) =
      ((inContext s).filter (!isUnquotedFrom q isGap ·)).map Prod.snd := by
  induction s generalizing q with
  | nil => rfl
  | cons b s ih =>
    rw [splitOperandsFrom, filter_inContext_cons]
    split <;> rename_i hcomma
    · obtain ⟨rfl, rfl⟩ := hcomma
      rw [join_cons _ _ (splitOperandsFrom_ne_nil _ _), ih, Quoting.step_comma, if_neg (by decide)]
      rfl
    split <;> rename_i hgap
    · obtain ⟨rfl, hgap⟩ := hgap
      rw [ih, Quoting.step_gap hgap]
      rfl
    · rw [join_consHead, ih]
      rfl

variable {q s}

/-- What follows a text matters by its own fields only. -/
theorem splitOperandsFrom_congr {rest rest' : ByteString}
    (h : splitOperandsFrom (s.foldl Quoting.step q) rest =
      splitOperandsFrom (s.foldl Quoting.step q) rest') :
    splitOperandsFrom q (s ++ rest) = splitOperandsFrom q (s ++ rest') := by
  induction s generalizing q with
  | nil => exact h
  | cons b s ih =>
    have hrest := ih h
    rw [List.cons_append, List.cons_append, splitOperandsFrom, splitOperandsFrom]
    split <;> rename_i hcomma
    · obtain ⟨rfl, rfl⟩ := hcomma
      rw [Quoting.step_comma] at hrest
      rw [hrest]
    split <;> rename_i hgap
    · obtain ⟨rfl, hgap⟩ := hgap
      rwa [Quoting.step_gap hgap] at hrest
    · rw [hrest]

/-- Text without commas and gaps outside quotation marks goes to the first field. -/
theorem splitOperandsFrom_append (hgaps : (inContext s).countP (isUnquotedFrom q isGap) = 0)
    (hcommas : (inContext s).countP (isUnquotedFrom q isComma) = 0) (rest : ByteString) :
    splitOperandsFrom q (s ++ rest) =
      s.foldr consHead (splitOperandsFrom (s.foldl Quoting.step q) rest) := by
  induction s generalizing q with
  | nil => rfl
  | cons b s ih =>
    rw [countP_inContext_cons, Nat.add_eq_zero_iff, ite_eq_right_iff] at hgaps hcommas
    have hcomma : ¬(q = .outside ∧ b = ascii ',') := fun h =>
      absurd (hcommas.2 ⟨h.1, beq_iff_eq.2 h.2⟩) Nat.one_ne_zero
    have hgap : ¬(q = .outside ∧ isGap b = true) := fun h => absurd (hgaps.2 h) Nat.one_ne_zero
    rw [List.cons_append, splitOperandsFrom, if_neg hcomma, if_neg hgap, ih hgaps.1 hcommas.1]
    rfl

end Split

/-! ## Fields -/

/-- A text that is one field: it is closed, and has no commas and gaps outside quotation marks. -/
structure IsField (s : ByteString) : Prop where
  closed : QuotesClosed s
  gaps : unquotedCount isGap s = 0
  commas : unquotedCount isComma s = 0

instance (s : ByteString) : Decidable (IsField s) :=
  decidable_of_iff (QuotesClosed s ∧ unquotedCount isGap s = 0 ∧ unquotedCount isComma s = 0)
    ⟨fun h => ⟨h.1, h.2.1, h.2.2⟩, fun h => ⟨h.closed, h.gaps, h.commas⟩⟩

theorem IsField.splitOperandsFrom_append {s : ByteString} (h : IsField s) (rest : ByteString) :
    splitOperandsFrom .outside (s ++ rest) = s.foldr consHead (splitOperandsFrom .outside rest) := by
  have hgaps := h.gaps
  have hcommas := h.commas
  rw [unquotedCount, ← isUnquotedFrom_outside] at hgaps hcommas
  rw [MipsAssembler.splitOperandsFrom_append hgaps hcommas, h.closed.foldl_step]

/-- Fields that are put together with commas and spaces are taken apart again. -/
theorem splitOperands_join {fields : List ByteString} (h : ∀ s ∈ fields, IsField s)
    (hne : fields ≠ []) : splitOperands (join ", " fields) = fields := by
  rw [splitOperands]
  induction fields with
  | nil => exact absurd rfl hne
  | cons s fields ih =>
    obtain ⟨hs, hfields⟩ := List.forall_mem_cons.1 h
    cases fields with
    | nil =>
      have hsplit := hs.splitOperandsFrom_append []
      rw [List.append_nil] at hsplit
      rw [join, List.intercalate_singleton, hsplit, splitOperandsFrom, foldr_consHead,
        List.append_nil]
    | cons t fields =>
      have hnext : t :: fields ≠ [] := List.cons_ne_nil _ _
      -- the comma ends the field and the space after it is passed over
      have hsep : splitOperandsFrom .outside (", " ++ join ", " (t :: fields)) =
          [] :: splitOperandsFrom .outside (join ", " (t :: fields)) := rfl
      rw [join_cons _ _ hnext, List.append_assoc, hs.splitOperandsFrom_append, hsep,
        ih hfields hnext, foldr_consHead, List.append_nil]

theorem unquotedCount_eq_zero {p : UInt8 → Bool} {s : ByteString} (h : ∀ b ∈ s, p b = false) :
    unquotedCount p s = 0 := by
  refine List.countP_eq_zero.2 fun x hx => ?_
  rw [isUnquoted, h x.2 (List.of_mem_zip hx).2, Bool.false_and]
  exact Bool.false_ne_true

/-- A word is a field. -/
theorem ByteString.IsWord.isField {s : ByteString} (h : IsWord s) : IsField s where
  closed := by
    have hmark : ∀ b ∈ s, isQuotationMark b = false := fun b hb =>
      isQuotationMark_of_isPlainByte (isPlainByte_of_isWordByte (h.bytes b hb))
    clear h
    induction s with
    | nil => exact .nil
    | cons b s ih =>
      rw [List.forall_mem_cons] at hmark
      exact .byte hmark.1 (ih hmark.2)
  gaps := unquotedCount_eq_zero fun b hb => isGap_of_isWordByte (h.bytes b hb)
  commas := unquotedCount_eq_zero fun b hb =>
    beq_eq_false_iff_ne.2 (ne_comma_of_isWordByte (h.bytes b hb))

/-! ## Gaps -/

/-- The second text is the first with a space or a tab more, outside quotation marks. -/
inductive GapInserted : ByteString → ByteString → Prop
  | insert {before after : ByteString} {b : UInt8} (hbefore : QuotesClosed before)
    (hgap : isGap b = true) : GapInserted (before ++ after) (before ++ b :: after)

theorem GapInserted.splitOperands_eq {s t : ByteString} (h : GapInserted s t) :
    splitOperands t = splitOperands s := by
  obtain ⟨hbefore, hgap⟩ := h
  refine splitOperandsFrom_congr ?_
  have hcomma := isComma_of_isGap hgap
  rw [hbefore.foldl_step, splitOperandsFrom, if_neg fun h => ?_, if_pos ⟨rfl, hgap⟩]
  simp [h.2, isComma] at hcomma

/-- Any number of gaps may be put in and left out. -/
theorem splitOperands_respaced {s t : ByteString} (h : Relation.EqvGen GapInserted s t) :
    splitOperands t = splitOperands s := by
  induction h with
  | rel _ _ h => exact h.splitOperands_eq
  | refl => rfl
  | symm _ _ _ ih => exact ih.symm
  | trans _ _ _ _ _ ih ih' => exact ih'.trans ih

/-- **Splitting operands respects quotation marks and nothing else counts but commas.** Spaces and tabs
outside quotation marks can be put in and left out in any number. There is one field more than there
are commas outside quotation marks, and the fields with commas between them are the text without the
spaces and tabs outside quotation marks. Any list of fields is found again in the text that is put
together from it. -/
theorem splitOperands_fields (s : ByteString) :
    (∀ t, Relation.EqvGen GapInserted s t → splitOperands t = splitOperands s) ∧
    (splitOperands s).length = unquotedCount isComma s + 1 ∧
    join "," (splitOperands s) = dropUnquoted isGap s ∧
    ∀ fields, fields ≠ [] → (∀ f ∈ fields, IsField f) →
      splitOperands (join ", " fields) = fields := by
  refine ⟨fun t ht => splitOperands_respaced ht, ?_, ?_, fun fields hne h => splitOperands_join h hne⟩
  · rw [splitOperands, length_splitOperandsFrom, isUnquotedFrom_outside, unquotedCount]
  · rw [splitOperands, join_splitOperandsFrom, isUnquotedFrom_outside, dropUnquoted]

/-- Operands with commas, spaces and the other mark between quotation marks. -/
def quotedFields : List ByteString := ["8($sp)", "' '", "\"a, \\\"'b\"", "'\\''"]

/-- The operands as someone may write them. -/
def quotedOperands : ByteString := "8" ++ " ($sp),' ' ,\t\"a, \\\"'b\", '\\''"

/-- The comma and the space in the third field stay, and the space before the register does not. -/
theorem splitOperands_fields_quoted :
    unquotedCount isComma quotedOperands = 3 ∧ (splitOperands quotedOperands).length = 4 ∧
      dropUnquoted isGap quotedOperands = join "," quotedFields ∧
      join "," (splitOperands quotedOperands) = join "," quotedFields ∧
      Relation.EqvGen GapInserted quotedOperands ("8" ++ quotedOperands.drop 2) ∧
      splitOperands ("8" ++ quotedOperands.drop 2) = splitOperands quotedOperands ∧
      (∀ f ∈ quotedFields, IsField f) ∧ splitOperands (join ", " quotedFields) = quotedFields := by
  have hcommas : unquotedCount isComma quotedOperands = 3 := by decide +kernel
  have hdrop : dropUnquoted isGap quotedOperands = join "," quotedFields := by decide +kernel
  have hclosed : QuotesClosed "8" := by decide +kernel
  have hgap : Relation.EqvGen GapInserted quotedOperands ("8" ++ quotedOperands.drop 2) :=
    .symm _ _ (.rel _ _ (.insert hclosed (b := ascii ' ') rfl))
  have hfields : ∀ f ∈ quotedFields, IsField f := by decide +kernel
  obtain ⟨hrespaced, hlength, hjoin, hfound⟩ := splitOperands_fields quotedOperands
  refine ⟨hcommas, ?_, hdrop, hjoin.trans hdrop, hgap, hrespaced _ hgap, hfields, ?_⟩
  · rw [hlength, hcommas]
  · exact hfound quotedFields (List.cons_ne_nil _ _) hfields

end MipsAssembler
