import Mathlib.Data.List.Forall2
import MipsAssembler.Proofs.PlainText

/-!
# What stands at the end of a line

A line is read without its margins, its comment and the blanks around what is left (`lineText`), and
nothing else of it reaches the draft. So two sources whose lines agree in this have the same outcome
(`Program.outcome_congr`): the same program, or the same errors at the same lines. The contents of a
line are quoted in errors; if they are the same as well, the two sources are read alike in every
respect (`Program.parse_congr`).

`Program.parse_lineEnds` applies this to comments and to carriage returns. A comment can be added
where the scan for the comment mark is outside quotation marks when it reaches the end of the line,
or has ended at a mark before (`TakesComment`).
-/

namespace MipsAssembler

open ByteString

/-! ## Margins -/

namespace ByteString

variable {p : UInt8 → Bool}

theorem strip_between {lead mid tail : ByteString} (hlead : ∀ b ∈ lead, p b = true)
    (htail : ∀ b ∈ tail, p b = true) (hfirst : ∀ b ∈ mid.head?, p b = false)
    (hlast : ∀ b ∈ mid.getLast?, p b = false) : strip p (lead ++ mid ++ tail) = mid := by
  rw [strip, dropWhile_ends_append htail, List.dropWhile_append_of_pos hlead]
  exact dropWhile_ends_eq_self hfirst hlast

theorem exists_margin (p : UInt8 → Bool) (s : ByteString) :
    ∃ body tail, s = body ++ tail ∧ (∀ b ∈ tail, p b = true) ∧
      ∀ b ∈ body.getLast?, p b = false := by
  refine ⟨(s.reverse.dropWhile p).reverse, (s.reverse.takeWhile p).reverse, ?_, ?_, ?_⟩
  · rw [← List.reverse_append, List.takeWhile_append_dropWhile, List.reverse_reverse]
  · intro b hb
    exact List.mem_takeWhile_imp (List.mem_reverse.1 hb)
  · intro b hb
    rw [List.getLast?_reverse] at hb
    have hnot := List.head?_dropWhile_not p s.reverse
    rw [hb] at hnot
    simpa using hnot

/-- A text is made of its margins and of what is left without them. -/
theorem exists_margins (p : UInt8 → Bool) (s : ByteString) :
    ∃ lead tail, s = lead ++ strip p s ++ tail ∧ (∀ b ∈ lead, p b = true) ∧
      (∀ b ∈ tail, p b = true) ∧ ∀ b ∈ (strip p s).head?, p b = false := by
  obtain ⟨body, tail, hbody, htail, hlast⟩ := exists_margin p (s.dropWhile p)
  have hsplit : s = s.takeWhile p ++ body ++ tail := by
    rw [List.append_assoc, ← hbody, List.takeWhile_append_dropWhile]
  have hlead : ∀ b ∈ s.takeWhile p, p b = true := fun b hb => List.mem_takeWhile_imp hb
  have hfirst : ∀ b ∈ body.head?, p b = false := by
    intro b hb
    have hnot := List.head?_dropWhile_not p s
    rw [hbody, List.head?_append, hb] at hnot
    simpa using hnot
  have hstrip : strip p s = body := by
    conv_lhs => rw [hsplit]
    exact strip_between hlead htail hfirst hlast
  exact ⟨s.takeWhile p, tail, hstrip ▸ hsplit, hlead, htail, hstrip ▸ hfirst⟩

end ByteString

/-! ## The scan for the comment mark -/

section Scan

variable {q : Quoting} {s : ByteString}

theorem stripCommentFrom_of_cut (h : stripCommentFrom q s ≠ s) (rest : ByteString) :
    stripCommentFrom q (s ++ rest) = stripCommentFrom q s := by
  induction s generalizing q with
  | nil => exact absurd rfl h
  | cons b s ih =>
    rw [stripCommentFrom] at h
    rw [List.cons_append, stripCommentFrom, stripCommentFrom]
    split
    · rfl
    · rename_i hmark
      rw [if_neg hmark] at h
      rw [ih fun heq => h (congrArg _ heq)]

/-- Without a comment mark the scan goes on where it stands. -/
theorem stripCommentFrom_of_uncut (h : stripCommentFrom q s = s) (rest : ByteString) :
    stripCommentFrom q (s ++ rest) = s ++ stripCommentFrom (s.foldl Quoting.step q) rest := by
  induction s generalizing q with
  | nil => rfl
  | cons b s ih =>
    rw [stripCommentFrom] at h
    rw [List.cons_append, stripCommentFrom]
    split
    · rename_i hmark
      rw [if_pos hmark] at h
      cases h
    · rename_i hmark
      rw [if_neg hmark] at h
      rw [ih (List.cons.inj h).2, List.foldl_cons, List.cons_append]

theorem stripCommentFrom_margins (h : ∀ b ∈ s, isMargin b = true) (rest : ByteString) :
    stripCommentFrom .outside (s ++ ascii '#' :: rest) = s := by
  have hmargin : ∀ b, isMargin b = true → b ≠ ascii '#' ∧ isQuotationMark b = false := by
    intro b hb
    rcases isMargin_cases hb with rfl | rfl | rfl | rfl <;> decide
  induction s with
  | nil => rfl
  | cons b s ih =>
    rw [List.forall_mem_cons] at h
    obtain ⟨hmark, hquote⟩ := hmargin b h.1
    rw [List.cons_append, stripCommentFrom, if_neg fun hc => hmark hc.2, Quoting.step, hquote]
    exact congrArg _ (ih h.2)

end Scan

/-! ## What is read of a line -/

/-- What is read of a line. -/
def lineText (raw : ByteString) : ByteString := trim (stripComment (strip isMargin raw))

/-- Can a comment be added to the line? The scan for the comment mark has found one in the line
already, or it ends outside quotation marks. -/
def TakesComment (raw : ByteString) : Prop :=
  stripComment (strip isMargin raw) ≠ strip isMargin raw ∨
    (strip isMargin raw).foldl Quoting.step .outside = .outside

instance (raw : ByteString) : Decidable (TakesComment raw) := inferInstanceAs (Decidable (_ ∨ _))

/-- The line with a comment after it. -/
def withComment (raw comment : ByteString) : ByteString := raw ++ " #" ++ comment

/-- Without its margins, a line with a comment is the line without its margins, with a gap and a
comment after it. -/
theorem exists_strip_withComment (raw comment : ByteString) :
    ∃ gap body, (∀ b ∈ gap, isMargin b = true) ∧
      strip isMargin (withComment raw comment) =
        strip isMargin raw ++ (gap ++ ascii '#' :: body) := by
  obtain ⟨lead, tail, hraw, hlead, htail, hfirst⟩ := exists_margins isMargin raw
  obtain ⟨body, rest, hcomment, hrest, hlast⟩ := exists_margin isMargin comment
  have hgap : ∀ b ∈ tail ++ " ", isMargin b = true := by
    intro b hb
    rcases List.mem_append.1 hb with hb | hb
    · exact htail b hb
    · rw [List.mem_singleton.1 hb]
      decide
  have hend : ∀ b ∈ (ascii '#' :: body).getLast?, isMargin b = false := by
    intro b hb
    rw [List.getLast?_cons] at hb
    obtain rfl := Option.some.inj hb
    cases hbody : body.getLast? with
    | none => decide
    | some b => exact hlast b hbody
  have hline : withComment raw comment =
      lead ++ (strip isMargin raw ++ ((tail ++ " ") ++ ascii '#' :: body)) ++ rest := by
    rw [withComment]
    conv_lhs => rw [hraw, hcomment]
    have hmark : (" #" : ByteString) = " " ++ [ascii '#'] := rfl
    simp [hmark]
  by_cases hempty : strip isMargin raw = []
  · -- nothing stands before the comment, and the gap is a margin
    refine ⟨[], body, by simp, ?_⟩
    rw [hline, hempty, List.nil_append, List.nil_append, List.nil_append, ← List.append_assoc lead]
    refine strip_between (fun b hb => ?_) hrest (fun b hb => ?_) hend
    · exact (List.mem_append.1 hb).elim (hlead b) (hgap b)
    · obtain rfl := Option.some.inj hb
      decide
  · refine ⟨tail ++ " ", body, hgap, ?_⟩
    rw [hline]
    refine strip_between hlead hrest (fun b hb => hfirst b ?_) (fun b hb => hend b ?_)
    · rwa [List.head?_append_of_ne_nil _ hempty] at hb
    · rwa [List.getLast?_append_of_ne_nil _ (by simp),
        List.getLast?_append_of_ne_nil _ (by simp)] at hb

theorem lineText_withComment {raw : ByteString} (h : TakesComment raw) (comment : ByteString) :
    lineText (withComment raw comment) = lineText raw := by
  obtain ⟨gap, body, hgap, hstrip⟩ := exists_strip_withComment raw comment
  rw [lineText, lineText, hstrip, stripComment]
  by_cases hcut : stripComment (strip isMargin raw) = strip isMargin raw
  · have houtside := h.resolve_left (not_not_intro hcut)
    rw [stripCommentFrom_of_uncut hcut, houtside, stripCommentFrom_margins hgap, trim_append hgap,
      hcut]
  · rw [stripCommentFrom_of_cut hcut]
    rfl

/-! ## Sources whose lines are read alike -/

/-- Where an error is, and what is wrong there. -/
def LineError.site (e : LineError) : Int × SourceError := (e.line, e.error)

/-- The program of a source, or where its errors are and what they are. -/
def Program.outcome (src : ByteString) : Except (List (Int × SourceError)) Program :=
  (Program.parse src).mapError (·.map LineError.site)

/-- The lines of a source, as they stand in it. -/
def rawLines (src : ByteString) : List ByteString := splitOn (ascii '\n') src

namespace Reading

/-- What two readings have in common is kept by lines that have something in common, if each line
keeps it. -/
theorem run_related {R : Reading → Reading → Prop} {S : ByteString → ByteString → Prop}
    (hstep : ∀ r r' raw raw' number, R r r' → S raw raw' →
      R (r.step raw number) (r'.step raw' number))
    {lines lines' : List ByteString} (hlines : List.Forall₂ S lines lines') {r r' : Reading}
    (h : R r r') (n : Nat) :
    R ((lines.zipIdx n).foldl (fun r (raw, number) => r.step raw number) r)
      ((lines'.zipIdx n).foldl (fun r (raw, number) => r.step raw number) r') := by
  induction hlines generalizing n r r' with
  | nil => exact h
  | cons hfirst _ ih =>
    rw [List.zipIdx_cons, List.zipIdx_cons, List.foldl_cons, List.foldl_cons]
    exact ih (hstep _ _ _ _ n h hfirst) (n + 1)

/-- Readings that are the same but for the contents of lines. -/
structure Alike (r r' : Reading) : Prop where
  draft : r.draft = r'.draft
  errors : r.errors.map LineError.site = r'.errors.map LineError.site
  last : r.last.1 = r'.last.1

variable {r r' : Reading}

theorem Alike.step (h : Alike r r') {raw raw' : ByteString} (htext : lineText raw = lineText raw')
    (number : Nat) : Alike (r.step raw number) (r'.step raw' number) := by
  simp only [Reading.step]
  rw [← lineText, ← lineText, ← htext, ← h.draft]
  split
  · exact h
  · refine ⟨rfl, ?_, rfl⟩
    simp [h.errors, LineError.site, Function.comp_def]

theorem Alike.allErrors (h : Alike r r') :
    r.allErrors.map LineError.site = r'.allErrors.map LineError.site := by
  rw [Reading.allErrors, Reading.allErrors, ← h.draft]
  split
  · exact h.errors
  · simp [h.errors, LineError.site, h.last]

end Reading

/-- Sources whose lines are read alike have the same outcome. -/
theorem Program.outcome_congr {src src' : ByteString}
    (h : List.Forall₂ (fun raw raw' => lineText raw = lineText raw') (rawLines src)
      (rawLines src')) : Program.outcome src = Program.outcome src' := by
  have halike : Reading.Alike (Reading.ofSource src) (Reading.ofSource src') :=
    Reading.run_related (fun _ _ _ _ number halike htext => halike.step htext number) h
      ⟨rfl, rfl, rfl⟩ 1
  have herrors := halike.allErrors
  have hnil : (Reading.ofSource src).allErrors = [] ↔ (Reading.ofSource src').allErrors = [] := by
    rw [← List.map_eq_nil_iff (f := LineError.site), herrors, List.map_eq_nil_iff]
  simp only [Program.outcome, Program.parse, hnil]
  split
  · rw [Except.mapError, Except.mapError, halike.draft]
  · rw [Except.mapError, Except.mapError, herrors]

theorem Program.parse_congr {src src' : ByteString}
    (h : List.Forall₂ (fun raw raw' => strip isMargin raw = strip isMargin raw') (rawLines src)
      (rawLines src')) : Program.parse src = Program.parse src' := by
  have hreading : Reading.ofSource src = Reading.ofSource src' := by
    refine Reading.run_related (fun r r' raw raw' number hr hraw => ?_) h rfl 1
    simp only [Reading.step, hr, hraw]
  rw [Program.parse, Program.parse, hreading]

/-! ## Ends of lines -/

/-- The source with a carriage return before every end of a line. -/
def withReturns (src : ByteString) : ByteString :=
  src.flatMap fun b => if b = ascii '\n' then [ascii '\r', ascii '\n'] else [b]

/-- The lines get carriage returns at their ends, but for the last one, which has no end. -/
theorem rawLines_withReturns (src : ByteString) :
    List.Forall₂ (fun raw raw' => raw' = raw ∨ raw' = raw ++ [ascii '\r']) (rawLines src)
      (rawLines (withReturns src)) := by
  induction src with
  | nil => exact .cons (.inl rfl) .nil
  | cons b src ih =>
    rw [rawLines, rawLines] at ih
    rw [rawLines, rawLines, withReturns, List.flatMap_cons, splitOn]
    split
    · exact .cons (.inr rfl) ih
    · rename_i hb
      obtain ⟨raw, lines, hlines⟩ := List.exists_cons_of_ne_nil (splitOn_ne_nil (ascii '\n') src)
      rw [List.singleton_append, splitOn, if_neg hb, hlines]
      rw [hlines] at ih
      obtain ⟨raw', lines', hraw, hrest, hlines'⟩ := List.forall₂_cons_left_iff.1 ih
      rw [← withReturns, hlines', consHead, consHead]
      refine .cons ?_ hrest
      rcases hraw with rfl | rfl
      · exact .inl rfl
      · exact .inr rfl

theorem newline_notMem_withComment {raw comment : ByteString} (hraw : ascii '\n' ∉ raw)
    (hcomment : ascii '\n' ∉ comment) : ascii '\n' ∉ withComment raw comment := by
  have hmark : ascii '\n' ∉ (" #" : ByteString) := by decide
  simp only [withComment, List.mem_append, hraw, hcomment, hmark, or_self, not_false_eq_true]

/-- **The end of a line is not read.** A comment that is added to a line of a source changes neither
the program nor the places and kinds of the errors, if the scan for the comment mark ends outside
quotation marks on that line or has found a comment there already. Carriage returns before the ends
of the lines change nothing at all. -/
theorem Program.parse_lineEnds (src : ByteString) :
    (∀ before raw after comment, rawLines src = before ++ raw :: after → TakesComment raw →
        ascii '\n' ∉ comment →
        Program.outcome (join "\n" (before ++ withComment raw comment :: after)) =
          Program.outcome src) ∧
      Program.parse (withReturns src) = Program.parse src := by
  constructor
  · intro before raw after comment hsrc hraw hcomment
    have hpieces : ∀ piece ∈ before ++ raw :: after, ascii '\n' ∉ piece := by
      rw [← hsrc]
      intro piece hpiece
      exact notMem_of_mem_splitOn hpiece
    have hlines : rawLines (join "\n" (before ++ withComment raw comment :: after)) =
        before ++ withComment raw comment :: after := by
      refine splitOn_join (fun piece hpiece => ?_) (by simp)
      rcases List.mem_append.1 hpiece with hmem | hmem
      · exact hpieces piece (by simp [hmem])
      · rcases List.mem_cons.1 hmem with rfl | hmem
        · exact newline_notMem_withComment (hpieces raw (by simp)) hcomment
        · exact hpieces piece (by simp [hmem])
    refine Program.outcome_congr ?_
    rw [hlines, hsrc]
    exact List.rel_append (List.forall₂_refl before)
      (.cons (lineText_withComment hraw comment) (List.forall₂_refl after))
  · refine (Program.parse_congr ((rawLines_withReturns src).imp fun raw raw' h => ?_)).symm
    rcases h with rfl | rfl
    · rfl
    · exact (dropWhile_ends_append (List.forall_mem_singleton.2 rfl) raw).symm

/-- A comment with quotation marks, colons and commas in it, after a quoted comment mark. -/
theorem Program.parse_lineEnds_quoted :
    TakesComment "li $t0, '#'" ∧
      Program.outcome (ofString "li $t0, '#' # it's: \"a\", #\nfrob") =
        Program.outcome (ofString "li $t0, '#'\nfrob") ∧
      Program.outcome (ofString "li $t0, '#'\nfrob") =
        .error [(2, .unknownMnemonic (ofString "frob"))] ∧
      Program.parse (ofString "li $t0, '#'\r\nfrob") =
        Program.parse (ofString "li $t0, '#'\nfrob") := by
  have htakes : TakesComment "li $t0, '#'" := by decide +kernel
  have hlines : rawLines (ofString "li $t0, '#'\nfrob") =
      [] ++ ofString "li $t0, '#'" :: ["frob"] := by
    decide +kernel
  have hcommented : join "\n" ([] ++ withComment "li $t0, '#'" " it's: \"a\", #" :: ["frob"]) =
      ofString "li $t0, '#' # it's: \"a\", #\nfrob" := by decide +kernel
  have hreturned : withReturns (ofString "li $t0, '#'\nfrob") = ofString "li $t0, '#'\r\nfrob" := by
    decide +kernel
  obtain ⟨hcomment, hreturns⟩ := Program.parse_lineEnds (ofString "li $t0, '#'\nfrob")
  have hsame := hcomment _ _ _ " it's: \"a\", #" hlines htakes (by decide +kernel)
  rw [hcommented] at hsame
  rw [hreturned] at hreturns
  exact ⟨htakes, hsame, by decide +kernel, hreturns⟩

end MipsAssembler
