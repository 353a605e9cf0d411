import MipsAssembler.Proofs.LineEnds

/-!
# The lines that errors name

Every error of a source has the number and the contents of a line of the source (`IsLine`). Reading
reports at most one error at each line, and the numbers of the lines ascend (`Reading.Tracks`). At
the end of the source there may be one error more, for labels that nothing followed. It names the
last line that is not blank, also if an error of that line has been reported, so that two errors can
be of one line: the last two, and no others (`Program.parse_error_lines`).
-/

namespace MipsAssembler

open ByteString

/-! ## Numbers and contents of lines -/

/-- Is `b` a space, a tab or a carriage return? -/
def isSide (b : UInt8) : Bool := isGap b || b == ascii '\r'

/-- Does the line with the number `number`, counted from one, have these contents? They are the line
without spaces, tabs and carriage returns at its ends. -/
def IsLine (lines : List ByteString) (number : Int) (contents : ByteString) : Prop :=
  ∃ (i : Nat) (raw : ByteString),
    number = i + 1 ∧ lines[i]? = some raw ∧ contents = strip isSide raw

section IsLine

variable {lines : List ByteString} {number : Int} {contents : ByteString}

/-- There is no end of a line in a line, and no other bytes are taken away from its margins. -/
theorem strip_isMargin {raw : ByteString} (h : ascii '\n' ∉ raw) :
    strip isMargin raw = strip isSide raw := by
  have hdrop : ∀ s : ByteString, ascii '\n' ∉ s → s.dropWhile isMargin = s.dropWhile isSide := by
    intro s hs
    induction s with
    | nil => rfl
    | cons b s ih =>
      rw [List.mem_cons, not_or] at hs
      have hb : isMargin b = isSide b := by simp [isMargin, isSide, Ne.symm hs.1]
      rw [List.dropWhile_cons, List.dropWhile_cons, hb, ih hs.2]
  have hrest : ascii '\n' ∉ (raw.dropWhile isSide).reverse := fun hmem =>
    h (List.dropWhile_sublist isSide |>.subset (List.mem_reverse.1 hmem))
  rw [strip, strip, hdrop raw h, hdrop _ hrest]

theorem IsLine.append (h : IsLine lines number contents) (more : List ByteString) :
    IsLine (lines ++ more) number contents := by
  obtain ⟨i, raw, hnumber, hraw, hcontents⟩ := h
  refine ⟨i, raw, hnumber, ?_, hcontents⟩
  rw [List.getElem?_append_left (List.getElem?_eq_some_iff.1 hraw).1, hraw]

theorem IsLine.le_length (h : IsLine lines number contents) : number ≤ lines.length := by
  obtain ⟨i, raw, rfl, hraw, -⟩ := h
  have hi := (List.getElem?_eq_some_iff.1 hraw).1
  omega

/-- The last line of a list. -/
theorem isLine_concat (lines : List ByteString) {raw : ByteString} (h : ascii '\n' ∉ raw) :
    IsLine (lines ++ [raw]) (lines.length + 1 : Nat) (strip isMargin raw) :=
  ⟨lines.length, raw, by simp, by simp, strip_isMargin h⟩

/-- A line has one text only. -/
theorem IsLine.unique {contents' : ByteString} (h : IsLine lines number contents)
    (h' : IsLine lines number contents') : contents = contents' := by
  obtain ⟨i, raw, rfl, hraw, rfl⟩ := h
  obtain ⟨j, raw', hnumber, hraw', rfl⟩ := h'
  obtain rfl : i = j := by omega
  rw [Option.some.inj (hraw.symm.trans hraw')]

end IsLine

/-! ## Reading -/

namespace Reading

/-- What is known of the errors after some lines: each names one of the lines, their numbers ascend
and go up to that of the last line that was not blank. -/
structure Tracks (lines : List ByteString) (r : Reading) : Prop where
  located : ∀ e ∈ r.errors, IsLine lines e.line e.contents
  ascending : r.errors.Pairwise fun e e' => e.line < e'.line
  le_last : ∀ e ∈ r.errors, e.line ≤ r.last.1
  last : r.draft.pending = [] ∨ IsLine lines r.last.1 r.last.2

variable {lines : List ByteString} {r : Reading}

/-- A line that is not blank becomes the last one, and is reported once at most. -/
theorem Tracks.report (h : Tracks lines r) {raw : ByteString} (hraw : ascii '\n' ∉ raw)
    (draft : Draft)
    (error : Option SourceError) :
    Tracks (lines ++ [raw])
      { draft
        errors := r.errors ++ error.toList.map fun e =>
          { line := (lines.length + 1 : Nat), contents := strip isMargin raw, error := e }
        last := ((lines.length + 1 : Nat), strip isMargin raw) } := by
  have hnew := isLine_concat lines hraw
  have hbefore : ∀ e ∈ r.errors, e.line < (lines.length + 1 : Nat) := by
    intro e he
    have := (h.located e he).le_length
    omega
  cases error with
  | none =>
    simp only [Option.toList_none, List.map_nil, List.append_nil]
    exact ⟨fun e he => (h.located e he).append [raw], h.ascending,
      fun e he => Int.le_of_lt (hbefore e he), .inr hnew⟩
  | some error =>
    refine ⟨?_, ?_, ?_, .inr hnew⟩
    · exact List.forall_mem_append.2
        ⟨fun e he => (h.located e he).append [raw], List.forall_mem_singleton.2 hnew⟩
    · exact List.pairwise_append.2
        ⟨h.ascending, List.pairwise_singleton ..,
          fun e he => List.forall_mem_singleton.2 (hbefore e he)⟩
    · exact List.forall_mem_append.2
        ⟨fun e he => Int.le_of_lt (hbefore e he), List.forall_mem_singleton.2 (Int.le_refl _)⟩

theorem Tracks.step (h : Tracks lines r) {raw : ByteString} (hraw : ascii '\n' ∉ raw) :
    Tracks (lines ++ [raw]) (r.step raw (lines.length + 1)) := by
  simp only [Reading.step]
  split
  · exact ⟨fun e he => (h.located e he).append [raw], h.ascending, h.le_last,
      h.last.imp_right fun hlast => hlast.append [raw]⟩
  · exact h.report hraw _ _

/-- What is known after some lines is known after more. -/
theorem Tracks.run (h : Tracks lines r) {more : List ByteString}
    (hmore : ∀ raw ∈ more, ascii '\n' ∉ raw) :
    Tracks (lines ++ more)
      ((more.zipIdx (lines.length + 1)).foldl (fun r (raw, number) => r.step raw number) r) := by
  induction more generalizing lines r with
  | nil => simpa using h
  | cons raw more ih =>
    rw [List.forall_mem_cons] at hmore
    have hnext := ih (h.step hmore.1) hmore.2
    rw [List.append_assoc, List.singleton_append, List.length_append,
      List.length_singleton] at hnext
    rw [List.zipIdx_cons, List.foldl_cons]
    exact hnext

theorem tracks_ofSource (src : ByteString) : Tracks (rawLines src) (ofSource src) := by
  have hempty : Tracks [] {} := ⟨by simp, .nil, by simp, .inl rfl⟩
  exact hempty.run fun raw hraw => notMem_of_mem_splitOn hraw

/-- Is the last line that is not blank reported twice: as wrong, and for labels left over? -/
def EndsTwice (r : Reading) : Prop := r.draft.pending ≠ [] ∧ ∃ e ∈ r.errors, e.line = r.last.1

instance (r : Reading) : Decidable r.EndsTwice := inferInstanceAs (Decidable (_ ∧ _))

/-- The error for labels that are left over. -/
def leftOver (r : Reading) : LineError :=
  { line := r.last.1, contents := r.last.2, error := .labelsAtEnd r.draft.pending }

theorem allErrors_of_pending (h : r.draft.pending ≠ []) :
    r.allErrors = r.errors ++ [r.leftOver] := by
  rw [allErrors, if_neg h]
  rfl

theorem Tracks.isLine_of_mem (h : Tracks lines r) {e : LineError} (he : e ∈ r.allErrors) :
    IsLine lines e.line e.contents := by
  by_cases hpending : r.draft.pending = []
  · rw [allErrors, if_pos hpending] at he
    exact h.located e he
  · rw [allErrors_of_pending hpending] at he
    rcases List.mem_append.1 he with he | he
    · exact h.located e he
    · rw [List.mem_singleton.1 he]
      exact h.last.resolve_left hpending

/-- No line is reported twice, or only the last one is. -/
theorem Tracks.ascending_allErrors (h : Tracks lines r) (honce : ¬ r.EndsTwice) :
    r.allErrors.Pairwise fun e e' => e.line < e'.line := by
  by_cases hpending : r.draft.pending = []
  · rw [allErrors, if_pos hpending]
    exact h.ascending
  · rw [allErrors_of_pending hpending]
    refine List.pairwise_append.2 ⟨h.ascending, List.pairwise_singleton .., ?_⟩
    intro e he e' he'
    rw [List.mem_singleton.1 he']
    exact Int.lt_iff_le_and_ne.2 ⟨h.le_last e he, fun heq => honce ⟨hpending, e, he, heq⟩⟩

/-- If the last line is reported twice, the two errors stand at the end. -/
theorem Tracks.allErrors_of_endsTwice (h : Tracks lines r) (htwice : r.EndsTwice) :
    ∃ own e, r.allErrors = own ++ [e, r.leftOver] ∧
      (own ++ [e]).Pairwise (fun e e' => e.line < e'.line) ∧ e.line = r.leftOver.line := by
  obtain ⟨hpending, e, he, hline⟩ := htwice
  obtain ⟨own, last, herrors⟩ :=
    (List.eq_nil_or_concat r.errors).resolve_left (List.ne_nil_of_mem he)
  rw [List.concat_eq_append] at herrors
  have hascending := h.ascending
  have hlast := h.le_last last
  rw [herrors] at he hascending hlast
  refine ⟨own, last, ?_, hascending, ?_⟩
  · rw [allErrors_of_pending hpending, herrors, List.append_assoc, List.singleton_append]
  · -- an error before the last one would have a smaller number than the last line
    refine Int.le_antisymm (hlast (by simp)) ?_
    change r.last.1 ≤ last.line
    rw [← hline]
    rcases List.mem_append.1 he with he | he
    · exact Int.le_of_lt ((List.pairwise_append.1 hascending).2.2 e he last (by simp))
    · exact Int.le_of_eq (congrArg LineError.line (List.mem_singleton.1 he))

end Reading

/-- **The lines that errors name.** The errors of a source that is refused have the numbers and the
contents of lines of the source, and the numbers ascend strictly unless the last line that is not
blank is wrong and labels are left over at the end of the source. Then the last two errors are of
that line, the second of them for the labels, and the numbers ascend strictly up to there. -/
theorem Program.parse_error_lines {src : ByteString} {es : List LineError}
    (h : Program.parse src = .error es) :
    es ≠ [] ∧ (∀ e ∈ es, IsLine (rawLines src) e.line e.contents) ∧
      (¬ (Reading.ofSource src).EndsTwice → es.Pairwise fun e e' => e.line < e'.line) ∧
      ((Reading.ofSource src).EndsTwice →
        ∃ own e last names, es = own ++ [e, last] ∧
          (own ++ [e]).Pairwise (fun e e' => e.line < e'.line) ∧ e.line = last.line ∧
          e.contents = last.contents ∧ last.error = .labelsAtEnd names) := by
  simp only [Program.parse] at h
  split at h
  · cases h
  · rename_i hne
    obtain rfl := Except.error.inj h
    have htracks := Reading.tracks_ofSource src
    refine ⟨hne, fun e he => htracks.isLine_of_mem he, htracks.ascending_allErrors,
      fun htwice => ?_⟩
    obtain ⟨own, e, herrors, hascending, hline⟩ := htracks.allErrors_of_endsTwice htwice
    refine ⟨own, e, _, _, herrors, hascending, hline, ?_, rfl⟩
    have he : IsLine (rawLines src) e.line e.contents :=
      htracks.isLine_of_mem (by rw [herrors]; simp)
    have hlast : IsLine (rawLines src) (Reading.ofSource src).leftOver.line
        (Reading.ofSource src).leftOver.contents :=
      htracks.isLine_of_mem (by rw [herrors]; simp)
    rw [hline] at he
    exact he.unique hlast

/-- Two wrong lines, and a label that the second of them does not take. -/
theorem Program.parse_error_lines_twice :
    ∃ es, Program.parse (ofString "frob\n\n\tx: .byte 1 # note\r\n") = .error es ∧
      es.map LineError.line = [1, 3, 3] ∧
      (∀ e ∈ es, IsLine (rawLines (ofString "frob\n\n\tx: .byte 1 # note\r\n")) e.line e.contents) ∧
      ∃ own e last names, es = own ++ [e, last] ∧ last.error = .labelsAtEnd names := by
  have hparse : Program.parse (ofString "frob\n\n\tx: .byte 1 # note\r\n") = .error
      [{ line := 1, contents := ofString "frob", error := .unknownMnemonic (ofString "frob") },
        { line := 3, contents := ofString "x: .byte 1 # note"
          error := .dataOutsideSegment (ofString ".byte") },
        { line := 3, contents := ofString "x: .byte 1 # note"
          error := .labelsAtEnd [ofString "x"] }] := by
    decide +kernel
  obtain ⟨-, hlines, -, htwice⟩ := Program.parse_error_lines hparse
  obtain ⟨own, e, last, names, herrors, -, -, -, hnames⟩ := htwice (by decide +kernel)
  exact ⟨_, hparse, rfl, hlines, own, e, last, names, herrors, hnames⟩

/-- The same line is reported as wrong and for its label. -/
theorem Program.parse_error_same_line :
    ∃ es, Program.parse (ofString "x: .byte 1") = .error es ∧
      ¬ es.Pairwise fun e e' => e.line < e'.line := by
  refine ⟨[{ line := 1, contents := ofString "x: .byte 1"
             error := .dataOutsideSegment (ofString ".byte") },
           { line := 1, contents := ofString "x: .byte 1"
             error := .labelsAtEnd [ofString "x"] }], ?_, ?_⟩
  · decide +kernel
  · decide +kernel

end MipsAssembler
