import Mathlib.Data.List.DropRight
import MipsAssembler.Proofs.Settlement
import MipsAssembler.Proofs.SourceLines

/-!
# The reader loses and invents nothing

A program that is read from a source is compared with the lines of the source. `Program.deposits`
lists the entries of a program with the segments they stand in, and `SourceLine.Adds` says which of
them a line adds, given the lines before it: an instruction or a payload in the segment that is
open, perhaps after an entry of zeros that aligns it, with all labels since the last entry; zeros for
an alignment; and nothing otherwise. `Program.parse_transcribes` says that every line adds its
entries, that there are no others, that they stand in the order of the lines, and that all labels
find an entry.

The segment that is open is found from the lines alone (`openings`), and so are the labels that wait
(`waiting`). The invariant `Draft.Keeps` ties both to the draft; every line keeps it
(`Draft.Keeps.step`).
-/

namespace MipsAssembler

open ByteString Outcome

variable {α : Type}

/-- A line among some lines and one more is that one, or one of the others. -/
theorem append_cons_eq_concat {l l' : α} {lines before after : List α}
    (h : lines ++ [l] = before ++ l' :: after) :
    (lines = before ∧ l = l' ∧ after = []) ∨
      ∃ after', lines = before ++ l' :: after' ∧ after = after' ++ [l] := by
  rcases List.eq_nil_or_concat' after with rfl | ⟨after, last, rfl⟩
  · obtain ⟨rfl, hl⟩ := List.append_inj' h rfl
    exact .inl ⟨rfl, by simpa using hl, rfl⟩
  · have h' : lines ++ [l] = (before ++ l' :: after) ++ [last] := by simpa using h
    obtain ⟨rfl, hlast⟩ := List.append_inj' h' rfl
    obtain rfl : l = last := by simpa using hlast
    exact .inr ⟨after, rfl, rfl⟩

/-! ## Entries with their segments -/

/-- An entry of a program, with the category and the number of the segment it stands in. -/
structure Deposit where
  category : Category
  segment : Nat
  place : Option Location
  item : Instruction ⊕ Payload
  line : Int
  deriving DecidableEq, Repr

/-- The entries of the segments of a category. -/
def depositsIn (k : Category) (f : α → Instruction ⊕ Payload) (segments : List (Segment α)) :
    List Deposit :=
  segments.zipIdx.flatMap fun (s, i) => s.entries.map fun e =>
    { category := k, segment := i, place := e.place, item := f e.item, line := e.line }

namespace Program

/-- The entries of a category, in the order of the segments. -/
def depositsOf (p : Program) : Category → List Deposit
  | .text m => depositsIn (.text m) .inl (p.text m)
  | .data m => depositsIn (.data m) .inr (p.data m)

/-- All entries of a program. -/
def deposits (p : Program) : List Deposit := Category.all.flatMap p.depositsOf

/-- The entries of a line of the source. -/
def depositsAt (p : Program) (number : Nat) : List Deposit :=
  p.deposits.filter fun x => x.line = number

end Program

theorem addToLast_concat (e : Entry α) (segments : List (Segment α)) (s : Segment α) :
    addToLast e (segments ++ [s]) = segments ++ [{ s with entries := s.entries ++ [e] }] := by
  induction segments with
  | nil => rfl
  | cons first segments ih =>
    rw [List.cons_append, addToLast, ih, List.cons_append]
    simp

theorem length_addToLast (e : Entry α) (segments : List (Segment α)) :
    (addToLast e segments).length = segments.length := by
  rcases List.eq_nil_or_concat' segments with rfl | ⟨init, s, rfl⟩
  · rfl
  · simp [addToLast_concat]

theorem depositsIn_concat (k : Category) (f : α → Instruction ⊕ Payload)
    (segments : List (Segment α)) (s : Segment α) :
    depositsIn k f (segments ++ [s]) = depositsIn k f segments ++
      s.entries.map fun e => ⟨k, segments.length, e.place, f e.item, e.line⟩ := by
  simp [depositsIn, List.zipIdx_append]

/-- An entry that is added to the last segment comes last. -/
theorem depositsIn_addToLast (k : Category) (f : α → Instruction ⊕ Payload)
    {segments : List (Segment α)} (h : segments ≠ []) (e : Entry α) :
    depositsIn k f (addToLast e segments) = depositsIn k f segments ++
      [⟨k, segments.length - 1, e.place, f e.item, e.line⟩] := by
  obtain ⟨init, s, rfl⟩ := (List.eq_nil_or_concat' segments).resolve_left h
  rw [addToLast_concat, depositsIn_concat, depositsIn_concat]
  simp

/-- The second program has the entries of the first and, after them, new ones of one category. -/
structure Program.Extends (p p' : Program) (k : Category) (new : List Deposit) : Prop where
  self : p'.depositsOf k = p.depositsOf k ++ new
  others : ∀ k', k' ≠ k → p'.depositsOf k' = p.depositsOf k'

namespace Program.Extends

variable {p p' p'' : Program} {k : Category} {new new' : List Deposit}

theorem refl (p : Program) (k : Category) : p.Extends p k [] := ⟨by simp, fun _ _ => rfl⟩

theorem trans (h : p.Extends p' k new) (h' : p'.Extends p'' k new') :
    p.Extends p'' k (new ++ new') :=
  ⟨by rw [h'.self, h.self, List.append_assoc],
    fun k' hk' => (h'.others k' hk').trans (h.others k' hk')⟩

theorem depositsOf_eq (h : p.Extends p' k new) (k' : Category) :
    p'.depositsOf k' = p.depositsOf k' ++ if k' = k then new else [] := by
  split
  · rename_i hk
    rw [hk, h.self]
  · rename_i hk
    rw [h.others k' hk, List.append_nil]

theorem mem_deposits (h : p.Extends p' k new) (x : Deposit) :
    x ∈ p'.deposits ↔ x ∈ p.deposits ∨ x ∈ new := by
  simp only [deposits, List.mem_flatMap, h.depositsOf_eq, List.mem_append]
  constructor
  · rintro ⟨k', hk', hx | hx⟩
    · exact .inl ⟨k', hk', hx⟩
    · split at hx
      · exact .inr hx
      · simp at hx
  · rintro (⟨k', hk', hx⟩ | hx)
    · exact ⟨k', hk', .inl hx⟩
    · exact ⟨k, Category.mem_all k, .inr (by simpa using hx)⟩

/-- A line that the new entries do not belong to has the entries it had. -/
theorem depositsAt_of_new (h : p.Extends p' k new) {n : Nat} (hnew : ∀ x ∈ new, x.line ≠ n) :
    p'.depositsAt n = p.depositsAt n := by
  have hnone : (new.filter fun x => x.line = (n : Int)) = [] :=
    List.filter_eq_nil_iff.2 fun x hx => by simpa using hnew x hx
  have hsame (k' : Category) : ((p'.depositsOf k').filter fun x => x.line = (n : Int)) =
      (p.depositsOf k').filter fun x => x.line = (n : Int) := by
    rw [h.depositsOf_eq, List.filter_append]
    split
    · rw [hnone, List.append_nil]
    · simp
  simp only [depositsAt, deposits, List.filter_flatMap, hsame]

/-- A line that the new entries belong to, and none from before, has these. -/
theorem depositsAt_of_old (h : p.Extends p' k new) {n : Nat} (hold : ∀ x ∈ p.deposits, x.line ≠ n)
    (hnew : ∀ x ∈ new, x.line = n) : p'.depositsAt n = new := by
  have hold (k' : Category) : ((p.depositsOf k').filter fun x => x.line = (n : Int)) = [] := by
    refine List.filter_eq_nil_iff.2 fun x hx => ?_
    simpa using hold x (List.mem_flatMap.2 ⟨k', Category.mem_all k', hx⟩)
  have hself : (new.filter fun x => x.line = (n : Int)) = new :=
    List.filter_eq_self.2 fun x hx => by simp [hnew x hx]
  simp only [depositsAt, deposits, List.filter_flatMap, h.depositsOf_eq, List.filter_append, hold,
    List.nil_append]
  rcases k with (_ | _) | (_ | _) <;> simp [Category.all, hself]

end Program.Extends

namespace Program

variable (p : Program)

theorem depositsOf_mapText {m : Mode} {f : List (Segment Instruction) → List (Segment Instruction)}
    {k : Category} (h : k ≠ .text m) : (p.mapText f m).depositsOf k = p.depositsOf k := by
  cases k with
  | text m' =>
    have hm : m' ≠ m := fun hm => h (hm ▸ rfl)
    simp only [depositsOf, text_mapText, if_neg hm]
  | data m' => simp only [depositsOf, data_mapText]

theorem depositsOf_mapData {m : Mode} {f : List (Segment Payload) → List (Segment Payload)}
    {k : Category} (h : k ≠ .data m) : (p.mapData f m).depositsOf k = p.depositsOf k := by
  cases k with
  | text m' => simp only [depositsOf, text_mapData]
  | data m' =>
    have hm : m' ≠ m := fun hm => h (hm ▸ rfl)
    simp only [depositsOf, data_mapData, if_neg hm]

theorem extends_addText {m : Mode} (h : p.text m ≠ []) (e : Entry Instruction) :
    p.Extends (p.addText m e) (.text m)
      [⟨.text m, (p.text m).length - 1, e.place, .inl e.item, e.line⟩] where
  self := by
    simp only [addText, depositsOf, text_mapText, if_pos]
    exact depositsIn_addToLast _ _ h e
  others k hk := p.depositsOf_mapText hk

theorem extends_addData {m : Mode} (h : p.data m ≠ []) (e : Entry Payload) :
    p.Extends (p.addData m e) (.data m)
      [⟨.data m, (p.data m).length - 1, e.place, .inr e.item, e.line⟩] where
  self := by
    simp only [addData, depositsOf, data_mapData, if_pos]
    exact depositsIn_addToLast _ _ h e
  others k hk := p.depositsOf_mapData hk

/-- A segment that is opened has no entries. -/
theorem depositsOf_openSegment (k k' : Category) (start : Option UInt32) :
    (p.openSegment k start).depositsOf k' = p.depositsOf k' := by
  by_cases hk : k' = k
  · subst hk
    cases k' with
    | text m => simp [openSegment, depositsOf, text_mapText, depositsIn_concat]
    | data m => simp [openSegment, depositsOf, data_mapData, depositsIn_concat]
  · cases k with
    | text m => exact p.depositsOf_mapText hk
    | data m => exact p.depositsOf_mapData hk

theorem extends_openSegment (k k' : Category) (start : Option UInt32) :
    p.Extends (p.openSegment k start) k' [] :=
  ⟨by rw [depositsOf_openSegment, List.append_nil], fun k' _ => p.depositsOf_openSegment k k' start⟩

/-! ## The number of segments -/

theorem length_segments_addText (m : Mode) (e : Entry Instruction) (k : Category) :
    ((p.addText m e).segments k).length = (p.segments k).length := by
  cases k with
  | text m' =>
    simp only [segments, addText, text_mapText]
    split
    · rename_i hm
      rw [length_addToLast, hm]
    · rfl
  | data m' => simp only [segments, addText, data_mapText]

theorem length_segments_addData (m : Mode) (e : Entry Payload) (k : Category) :
    ((p.addData m e).segments k).length = (p.segments k).length := by
  cases k with
  | text m' => simp only [segments, addData, text_mapData]
  | data m' =>
    simp only [segments, addData, data_mapData]
    split
    · rename_i hm
      rw [length_addToLast, hm]
    · rfl

theorem length_segments_openSegment (k k' : Category) (start : Option UInt32) :
    ((p.openSegment k start).segments k').length = (p.segments k').length + [k].count k' := by
  rw [List.count_singleton]
  cases k with
  | text m => cases k' with
    | text m' =>
      simp only [segments, openSegment, text_mapText]
      rcases eq_or_ne m' m with rfl | hm
      · simp
      · simp [hm, hm.symm]
    | data m' => simp [segments, openSegment, data_mapText]
  | data m => cases k' with
    | text m' => simp [segments, openSegment, text_mapData]
    | data m' =>
      simp only [segments, openSegment, data_mapData]
      rcases eq_or_ne m' m with rfl | hm
      · simp
      · simp [hm, hm.symm]

end Program

/-! ## What the lines say -/

/-- Are there instructions before the first directive that opens a segment? -/
def startsBare (lines : List SourceLine) : Bool :=
  (lines.takeWhile (·.category?.isNone)).any (·.isInstruction)

/-- The categories of the segments that some lines open, in their order: one for each directive that
opens a segment and, before these, one for instructions before the first of them. -/
def openings (lines : List SourceLine) : List Category :=
  (if startsBare lines then [.text .user] else []) ++ lines.filterMap (·.category?)

/-- The labels that wait after some lines: those since the last line with an entry. -/
def waiting (lines : List SourceLine) : List ByteString :=
  (lines.rtakeWhile (!·.isEntry)).flatMap (·.labels)

namespace SourceLine

variable {l : SourceLine}

theorem isInstruction_of_statement {text : ByteString}
    (h : l.statement = some (.instruction text)) : l.isInstruction = true := by
  simp [isInstruction, h]

theorem category?_of_isInstruction (h : l.isInstruction = true) : l.category? = none := by
  unfold isInstruction at h
  split at h
  · rename_i text hs
    simp [category?, directive?, hs]
  · cases h

theorem isInstruction_of_directive? {directive : Directive} (h : l.directive? = some directive) :
    l.isInstruction = false := by
  unfold directive? at h
  split at h
  · rename_i name arguments hs
    simp [isInstruction, hs]
  · cases h

/-- A line that opens a segment has no entry. -/
theorem isEntry_of_category? {k : Category} (h : l.category? = some k) : l.isEntry = false := by
  unfold category? at h
  split at h
  · rename_i hdirective
    simp [isEntry, isInstruction_of_directive? hdirective, hdirective, Directive.isData]
  · cases h

theorem isEntry_of_align (h : l.directive? = some .align) : l.isEntry = false := by
  simp [isEntry, isInstruction_of_directive? h, h, Directive.isData]

/-- A directive of data has an entry and opens no segment. -/
theorem isEntry_of_isData {directive : Directive} (h : l.directive? = some directive)
    (hdata : directive.isData = true) : l.isEntry = true ∧ l.category? = none := by
  refine ⟨by simp [isEntry, h, hdata], ?_⟩
  cases directive with
  | segment k => cases hdata
  | ignored | align | bytes | halves | words | space | text => simp [category?, h]

/-- So does a line with a payload. -/
theorem isEntry_of_payload {name arguments : ByteString} {r : UInt32 × Payload}
    (hs : l.statement = some (.directive name arguments))
    (hp : Draft.payloadOf name arguments (Directive.ofName? name) = .ok r) :
    l.isEntry = true ∧ l.category? = none ∧ l.isInstruction = false := by
  obtain ⟨directive, hdirective, hdata⟩ := (Option.any_eq_true _ _).1 (Draft.isData_of_payloadOf hp)
  have hdirective : l.directive? = some directive := by simpa [directive?, hs] using hdirective
  obtain ⟨hentry, hcategory⟩ := isEntry_of_isData hdirective hdata
  exact ⟨hentry, hcategory, isInstruction_of_directive? hdirective⟩

end SourceLine

theorem startsBare_concat (lines : List SourceLine) (l : SourceLine) :
    startsBare (lines ++ [l]) = (startsBare lines ||
      (lines.all (·.category?.isNone) && l.category?.isNone && l.isInstruction)) := by
  induction lines with
  | nil => by_cases h : l.category?.isNone <;> simp [startsBare, h]
  | cons first lines ih =>
    simp only [startsBare] at ih
    by_cases h : first.category?.isNone
    · simp [startsBare, h, ih, Bool.or_assoc]
    · simp [startsBare, h]

theorem openings_concat_segment (lines : List SourceLine) {l : SourceLine} {k : Category}
    (h : l.category? = some k) : openings (lines ++ [l]) = openings lines ++ [k] := by
  simp [openings, startsBare_concat, h]

theorem openings_concat_quiet (lines : List SourceLine) {l : SourceLine} (h : l.category? = none)
    (hi : l.isInstruction = false) : openings (lines ++ [l]) = openings lines := by
  simp [openings, startsBare_concat, h, hi]

/-- The first instruction opens a segment if there is none; any other instruction opens none. -/
theorem openings_concat_instruction (lines : List SourceLine) {l : SourceLine}
    (hi : l.isInstruction = true) :
    openings (lines ++ [l]) = if openings lines = [] then [.text .user] else openings lines := by
  have h := SourceLine.category?_of_isInstruction hi
  by_cases hall : lines.all (·.category?.isNone) = true
  · have hnone : lines.filterMap (·.category?) = [] := by
      simpa [List.filterMap_eq_nil_iff] using hall
    cases hbare : startsBare lines <;> simp [openings, startsBare_concat, h, hi, hall, hnone, hbare]
  · have hsome : lines.filterMap (·.category?) ≠ [] := by
      simpa [List.filterMap_eq_nil_iff] using hall
    simp [openings, startsBare_concat, h, hall, hsome]

theorem waiting_concat (lines : List SourceLine) (l : SourceLine) :
    waiting (lines ++ [l]) = if l.isEntry then [] else waiting lines ++ l.labels := by
  rw [waiting, List.rtakeWhile_concat]
  cases h : l.isEntry <;> simp [waiting]

/-- Lines without entries add all their labels to those that wait. -/
theorem waiting_append (lines : List SourceLine) {run : List SourceLine}
    (h : ∀ l ∈ run, l.isEntry = false) :
    waiting (lines ++ run) = waiting lines ++ run.flatMap (·.labels) := by
  induction run using List.reverseRecOn with
  | nil => simp
  | append_singleton run l ih =>
    rw [← List.append_assoc, waiting_concat, h l (by simp), ih fun l' hl' => h l' (by simp [hl'])]
    simp

/-- The place of an entry with the given labels, before it has an address. -/
def placeOf (labels : List ByteString) : Option Location :=
  if labels = [] then none else some { labels }

@[simp] theorem labelsOf_placeOf (labels : List ByteString) :
    labelsOf (placeOf labels) = labels := by
  rw [placeOf]
  split
  · rename_i h
    rw [h]
    rfl
  · rfl

/-- At most one entry of zeros without labels, in the given segment. -/
def IsPadding (k : Category) (segment : Nat) (line : Int) (ds : List Deposit) : Prop :=
  ds = [] ∨ ∃ count, ds = [⟨k, segment, none, .inr (.space count), line⟩]

theorem IsPadding.line {k : Category} {segment : Nat} {line : Int} {ds : List Deposit}
    (h : IsPadding k segment line ds) : ∀ x ∈ ds, x.line = line := by
  rcases h with rfl | ⟨count, rfl⟩ <;> simp

theorem IsPadding.labels {k : Category} {segment : Nat} {line : Int} {ds : List Deposit}
    (h : IsPadding k segment line ds) : ds.flatMap (fun x => labelsOf x.place) = [] := by
  rcases h with rfl | ⟨count, rfl⟩ <;> rfl

/-- What a line adds to a program, given the lines before it. The segment that is open is the last
one that was opened, and its number says how many of its category were opened before it. -/
inductive SourceLine.Adds (before : List SourceLine) (l : SourceLine) : List Deposit → Prop
  /-- An instruction is one entry of the open text segment, which may be opened for it, with all
  labels that wait. -/
  | instruction {text : ByteString} {inst : Instruction} {earlier : List Category} {m : Mode} :
      l.statement = some (.instruction text) → Instruction.parse text = .ok inst →
      openings (before ++ [l]) = earlier ++ [.text m] →
      Adds before l [⟨.text m, earlier.count (.text m), placeOf (waiting before ++ l.labels),
        .inl inst, l.number⟩]
  /-- A directive of data is one entry of the open data segment, with all labels that wait. Zeros
  may stand before it. -/
  | payload {name arguments : ByteString} {align : UInt32} {p : Payload} {earlier : List Category}
      {m : Mode} {padding : List Deposit} : l.statement = some (.directive name arguments) →
      Draft.payloadOf name arguments (Directive.ofName? name) = .ok (align, p) →
      openings before = earlier ++ [.data m] →
      IsPadding (.data m) (earlier.count (.data m)) l.number padding →
      Adds before l (padding ++ [⟨.data m, earlier.count (.data m),
        placeOf (waiting before ++ l.labels), .inr p, l.number⟩])
  /-- An alignment may add zeros to the open data segment. -/
  | align {earlier : List Category} {m : Mode} {padding : List Deposit} :
      l.directive? = some .align → openings before = earlier ++ [.data m] →
      IsPadding (.data m) (earlier.count (.data m)) l.number padding → Adds before l padding
  /-- Any other line adds nothing. -/
  | nothing : l.isEntry = false → Adds before l []

/-- A line with an entry adds one that has the labels that wait and its own. -/
theorem SourceLine.Adds.exists_labels {before : List SourceLine} {l : SourceLine}
    {ds : List Deposit} (h : l.Adds before ds) (hl : l.isEntry = true) :
    ∃ x ∈ ds, labelsOf x.place = waiting before ++ l.labels := by
  cases h with
  | instruction => exact ⟨_, List.mem_singleton_self _, labelsOf_placeOf _⟩
  | payload => exact ⟨_, List.mem_append_right _ (List.mem_singleton_self _), labelsOf_placeOf _⟩
  | align hdirective => simp [isEntry_of_align hdirective] at hl
  | nothing hentry => simp [hentry] at hl

/-- The labels that wait are those of the lines that are not yet on entries. -/
theorem SourceLine.Adds.labels_waiting {before : List SourceLine} {l : SourceLine}
    {ds : List Deposit} (h : l.Adds before ds) :
    ds.flatMap (fun x => labelsOf x.place) ++ waiting (before ++ [l]) =
      waiting before ++ l.labels := by
  rw [waiting_concat]
  cases h with
  | instruction hs => simp [isEntry, isInstruction_of_statement hs]
  | payload hs hp hopen hpadding => simp [hpadding.labels, (isEntry_of_payload hs hp).1]
  | align hdirective hopen hpadding => simp [hpadding.labels, isEntry_of_align hdirective]
  | nothing hentry => simp [hentry]

/-- The program says what the lines say. -/
structure Program.Transcribes (lines : List SourceLine) (p : Program) : Prop where
  /-- There is a segment for each that is opened. -/
  segments : ∀ k, (p.segments k).length = (openings lines).count k
  /-- The entries of a line are those that it adds. -/
  adds : ∀ before l after, lines = before ++ l :: after →
    l.Adds before (p.depositsAt l.number)
  /-- Every entry comes from a line. -/
  sourced : ∀ x ∈ p.deposits, ∃ l ∈ lines, x.line = l.number
  /-- The entries of a category stand in the order of their lines. -/
  ordered : ∀ k, (p.depositsOf k).Pairwise fun x y => x.line ≤ y.line

namespace Program.Transcribes

variable {lines : List SourceLine} {l : SourceLine} {p p' : Program} {k : Category}
  {new : List Deposit}

theorem empty : Program.Transcribes [] {} where
  segments k := by rcases k with (_ | _) | (_ | _) <;> rfl
  adds before l after h := by simp at h
  sourced := by
    intro x hx
    cases hx
  ordered k := by rcases k with (_ | _) | (_ | _) <;> exact .nil

/-- The entries from before belong to other lines. -/
theorem line_lt (h : p.Transcribes lines) (hnumber : ∀ l' ∈ lines, l'.number < l.number)
    {x : Deposit} (hx : x ∈ p.deposits) : x.line < l.number := by
  obtain ⟨l', hl', hxl'⟩ := h.sourced x hx
  rw [hxl']
  exact Int.ofNat_lt.2 (hnumber l' hl')

/-- The labels on the entries of some lines and those that wait after them are the labels of the
lines, in their order. -/
theorem labels_waiting (h : p.Transcribes lines) {before after : List SourceLine}
    (hsplit : lines = before ++ after) :
    before.flatMap (fun l => (p.depositsAt l.number).flatMap fun x => labelsOf x.place) ++
      waiting before = before.flatMap (·.labels) := by
  induction before using List.reverseRecOn generalizing after with
  | nil => rfl
  | append_singleton before l ih =>
    rw [List.append_assoc] at hsplit
    have hadds := (h.adds before l after hsplit).labels_waiting
    simp only [List.flatMap_append, List.flatMap_singleton, List.append_assoc]
    rw [hadds, ← List.append_assoc, ih hsplit]

/-- A line goes on with the transcript if it adds its entries. -/
theorem extend (h : p.Transcribes lines) (hnumber : ∀ l' ∈ lines, l'.number < l.number)
    (hext : p.Extends p' k new) (hline : ∀ x ∈ new, x.line = l.number) (hadds : l.Adds lines new)
    (hsegments : ∀ k, (p'.segments k).length = (openings (lines ++ [l])).count k) :
    p'.Transcribes (lines ++ [l]) where
  segments := hsegments
  adds before l' after hsplit := by
    rcases append_cons_eq_concat hsplit with ⟨rfl, rfl, rfl⟩ | ⟨after, rfl, rfl⟩
    · rw [hext.depositsAt_of_old (fun x hx => Int.ne_of_lt (h.line_lt hnumber hx)) hline]
      exact hadds
    · have hlt := hnumber l' (by simp)
      have hnew : ∀ x ∈ new, x.line ≠ l'.number := by
        intro x hx
        rw [hline x hx]
        omega
      rw [hext.depositsAt_of_new hnew]
      exact h.adds before l' after rfl
  sourced x hx := by
    rcases (hext.mem_deposits x).1 hx with hx | hx
    · obtain ⟨l', hl', hxl'⟩ := h.sourced x hx
      exact ⟨l', by simp [hl'], hxl'⟩
    · exact ⟨l, by simp, hline x hx⟩
  ordered k' := by
    rw [hext.depositsOf_eq]
    refine List.pairwise_append.2 ⟨h.ordered k', ?_, fun x hx y hy => ?_⟩
    · split
      · exact List.pairwise_of_forall_mem_list fun x hx y hy =>
          Int.le_of_eq ((hline x hx).trans (hline y hy).symm)
      · exact .nil
    · split at hy
      · rw [hline y hy]
        exact Int.le_of_lt (h.line_lt hnumber (List.mem_flatMap.2 ⟨k', Category.mem_all k', hx⟩))
      · simp at hy

end Program.Transcribes

/-! ## The invariant -/

/-- The category of the segment that is open. -/
def OpenSegment.category? : OpenSegment → Option Category
  | .none => .none
  | .text m => some (.text m)
  | .data m _ => some (.data m)

/-- The first of the lines with an entry comes before all that open a segment. -/
def FindsEntry (lines : List SourceLine) : Prop :=
  ∃ run e rest, lines = run ++ e :: rest ∧ e.isEntry = true ∧
    ∀ l ∈ run, l.isEntry = false ∧ l.category? = none

theorem FindsEntry.append {lines : List SourceLine} (h : FindsEntry lines)
    (more : List SourceLine) : FindsEntry (lines ++ more) := by
  obtain ⟨run, e, rest, rfl, he, hrun⟩ := h
  exact ⟨run, e, rest ++ more, by simp, he, hrun⟩

namespace Draft

/-- What is known of a draft after some lines. -/
structure Keeps (lines : List SourceLine) (d : Draft) : Prop where
  program : d.program.Transcribes lines
  current : d.current.category? = (openings lines).getLast?
  pending : d.pending = waiting lines
  /-- The labels of a line have found their entry, or wait for it. -/
  carried : ∀ before l after, lines = before ++ l :: after → l.labels ≠ [] →
    FindsEntry (l :: after) ∨
      d.pending ≠ [] ∧ ∀ l' ∈ l :: after, l'.isEntry = false ∧ l'.category? = none

theorem keeps_empty : Keeps [] {} where
  program := .empty
  current := rfl
  pending := rfl
  carried before l after h := by simp at h

/-- The labels of the lines find an entry in a line that has one. -/
theorem Keeps.carried_of_isEntry {lines : List SourceLine} {l : SourceLine} {d : Draft}
    (h : d.Keeps lines) (hl : l.isEntry = true) {before after : List SourceLine} {l' : SourceLine}
    (hsplit : lines ++ [l] = before ++ l' :: after) (hlabels : l'.labels ≠ []) :
    FindsEntry (l' :: after) := by
  rcases append_cons_eq_concat hsplit with ⟨rfl, rfl, rfl⟩ | ⟨after, rfl, rfl⟩
  · exact ⟨[], l, [], rfl, hl, by simp⟩
  · rcases h.carried before l' after rfl hlabels with hfinds | ⟨-, hquiet⟩
    · exact hfinds.append [l]
    · exact ⟨l' :: after, l, [], by simp, hl, hquiet⟩

/-- The labels of the lines wait on behind a line that has no entry and opens no segment. -/
theorem Keeps.carried_of_quiet {lines : List SourceLine} {l : SourceLine} {d : Draft}
    (h : d.Keeps lines) (hl : l.isEntry = false ∧ l.category? = none)
    {before after : List SourceLine} {l' : SourceLine}
    (hsplit : lines ++ [l] = before ++ l' :: after) (hlabels : l'.labels ≠ []) :
    FindsEntry (l' :: after) ∨ d.pending ++ l.labels ≠ [] ∧
      ∀ l'' ∈ l' :: after, l''.isEntry = false ∧ l''.category? = none := by
  rcases append_cons_eq_concat hsplit with ⟨rfl, rfl, rfl⟩ | ⟨after, rfl, rfl⟩
  · exact .inr ⟨by simp [hlabels], by simpa using hl⟩
  · rcases h.carried before l' after rfl hlabels with hfinds | ⟨hp, hquiet⟩
    · exact .inl (hfinds.append [l])
    · refine .inr ⟨by simp [hp], fun l'' hl'' => ?_⟩
      rw [← List.cons_append, List.mem_append, List.mem_singleton] at hl''
      rcases hl'' with hl'' | rfl
      · exact hquiet l'' hl''
      · exact hl

section Segments

variable {lines : List SourceLine} {d : Draft}

/-- The segment that is open is the last one of its category. -/
theorem Keeps.open_segment (h : d.Keeps lines) {k : Category} (hk : d.current.category? = some k) :
    ∃ earlier, openings lines = earlier ++ [k] ∧
      (d.program.segments k).length = earlier.count k + 1 := by
  obtain ⟨earlier, hearlier⟩ := List.getLast?_eq_some_iff.1 (h.current.symm.trans hk)
  refine ⟨earlier, hearlier, ?_⟩
  rw [h.program.segments k, hearlier]
  simp

/-- Filling up adds zeros at most. -/
theorem padTo_extends {m : Mode} {offset : UInt32} (hcurrent : d.current = .data m offset)
    {i : Nat} (hi : (d.program.data m).length = i + 1) (n : UInt32) (line : Int) :
    ∃ padding, IsPadding (.data m) i line padding ∧
      d.program.Extends (d.padTo n line).program (.data m) padding ∧
      (∀ k, ((d.padTo n line).program.segments k).length = (d.program.segments k).length) ∧
      (d.padTo n line).pending = d.pending ∧
      ∃ offset', (d.padTo n line).current = .data m offset' := by
  rw [padTo, hcurrent]
  dsimp only
  split
  · exact ⟨[], .inl rfl, .refl _ _, fun _ => rfl, rfl, offset, hcurrent⟩
  · have hne : d.program.data m ≠ [] := List.ne_nil_of_length_eq_add_one hi
    refine ⟨_, .inr ⟨n - offset % n, ?_⟩, d.program.extends_addData hne _,
      d.program.length_segments_addData m _, rfl, _, rfl⟩
    rw [hi]
    rfl

theorem addPayload_extends {m : Mode} {offset : UInt32} (hcurrent : d.current = .data m offset)
    {i : Nat} (hi : (d.program.data m).length = i + 1) (p : Payload) (line : Int) :
    d.program.Extends (d.addPayload p line).program (.data m)
        [⟨.data m, i, placeOf d.pending, .inr p, line⟩] ∧
      (∀ k, ((d.addPayload p line).program.segments k).length = (d.program.segments k).length) ∧
      (d.addPayload p line).pending = [] ∧
      (d.addPayload p line).current.category? = some (.data m) := by
  have hne : d.program.data m ≠ [] := List.ne_nil_of_length_eq_add_one hi
  rw [addPayload, hcurrent]
  refine ⟨?_, d.program.length_segments_addData m _, rfl, rfl⟩
  have hext := d.program.extends_addData hne ⟨d.nextPlace, p, line⟩
  rwa [hi] at hext

theorem addInstruction_extends {m : Mode} {i : Nat} (hi : (d.program.text m).length = i + 1)
    (inst : Instruction) (line : Int) :
    d.program.Extends (d.addInstruction m inst line).program (.text m)
      [⟨.text m, i, placeOf d.pending, .inl inst, line⟩] := by
  have hne : d.program.text m ≠ [] := List.ne_nil_of_length_eq_add_one hi
  have hext := d.program.extends_addText hne ⟨d.nextPlace, inst, line⟩
  rwa [hi] at hext

end Segments

section Steps

variable {lines : List SourceLine} {l : SourceLine} {d : Draft}

theorem Keeps.quiet (h : d.Keeps lines) (hnumber : ∀ l' ∈ lines, l'.number < l.number)
    (hentry : l.isEntry = false) (hcategory : l.category? = none) :
    (d.addLabels l.labels).Keeps (lines ++ [l]) := by
  have hopen : openings (lines ++ [l]) = openings lines :=
    openings_concat_quiet lines hcategory (Bool.or_eq_false_iff.1 hentry).1
  refine ⟨?_, hopen ▸ h.current, ?_, fun before l' after hsplit hlabels => ?_⟩
  · exact h.program.extend hnumber (.refl _ (.text .user)) (by simp) (.nothing hentry)
      (hopen ▸ h.program.segments)
  · rw [waiting_concat, hentry, ← h.pending]
    rfl
  · exact h.carried_of_quiet ⟨hentry, hcategory⟩ hsplit hlabels

theorem Keeps.align (h : d.Keeps lines) (hnumber : ∀ l' ∈ lines, l'.number < l.number)
    {m : Mode} {offset : UInt32} (n : UInt32) (hdirective : l.directive? = some .align)
    (hcurrent : d.current = .data m offset) :
    ((d.addLabels l.labels).padTo n l.number).Keeps (lines ++ [l]) := by
  have hinstruction := SourceLine.isInstruction_of_directive? hdirective
  have hentry := SourceLine.isEntry_of_align hdirective
  have hcategory : l.category? = none := by simp [SourceLine.category?, hdirective]
  have hopen := openings_concat_quiet lines hcategory hinstruction
  obtain ⟨earlier, hearlier, hlength⟩ :=
    @Keeps.open_segment lines d h (.data m) (by rw [hcurrent]; rfl)
  obtain ⟨padding, hpadding, hext, hlengths, hpending, offset', hcurrent'⟩ :=
    @padTo_extends (d.addLabels l.labels) m offset hcurrent _ hlength n l.number
  refine ⟨?_, ?_, ?_, fun before l' after hsplit hlabels => ?_⟩
  · refine h.program.extend hnumber hext hpadding.line (.align hdirective hearlier hpadding) ?_
    rw [hopen]
    exact fun k => (hlengths k).trans (h.program.segments k)
  · rw [hopen, ← h.current, hcurrent', hcurrent]
    rfl
  · rw [hpending, waiting_concat, hentry, ← h.pending]
    rfl
  · rw [hpending]
    exact h.carried_of_quiet ⟨hentry, hcategory⟩ hsplit hlabels

theorem Keeps.segment (h : d.Keeps lines) (hnumber : ∀ l' ∈ lines, l'.number < l.number)
    {k : Category} (start : Option UInt32) (hcategory : l.category? = some k)
    (hpending : d.pending = []) (hlabels : l.labels = []) :
    (d.openSegment k start).Keeps (lines ++ [l]) := by
  have hentry := SourceLine.isEntry_of_category? hcategory
  have hopen := openings_concat_segment lines hcategory
  refine ⟨?_, ?_, ?_, fun before l' after hsplit hlabels' => ?_⟩
  · refine h.program.extend hnumber (d.program.extends_openSegment k k start) (by simp)
      (.nothing hentry) fun k' => ?_
    rw [hopen, List.count_append, ← h.program.segments k']
    exact d.program.length_segments_openSegment k k' start
  · rw [hopen, List.getLast?_concat]
    cases k <;> rfl
  · rw [waiting_concat, hentry, ← h.pending, hpending, hlabels]
    exact hpending
  · -- labels that wait would be an error, and the line has none
    rcases append_cons_eq_concat hsplit with ⟨rfl, rfl, rfl⟩ | ⟨after, rfl, rfl⟩
    · exact absurd hlabels hlabels'
    · rcases h.carried before l' after rfl hlabels' with hfinds | ⟨hp, -⟩
      · exact .inl (hfinds.append [l])
      · exact absurd hpending hp

theorem Keeps.payload (h : d.Keeps lines) (hnumber : ∀ l' ∈ lines, l'.number < l.number)
    {m : Mode} {offset : UInt32} {name arguments : ByteString} {align : UInt32} {p : Payload}
    (hs : l.statement = some (.directive name arguments))
    (hp : payloadOf name arguments (Directive.ofName? name) = .ok (align, p))
    (hcurrent : d.current = .data m offset) :
    (((d.addLabels l.labels).padTo align l.number).addPayload p l.number).Keeps (lines ++ [l]) := by
  obtain ⟨hentry, hcategory, hinstruction⟩ := SourceLine.isEntry_of_payload hs hp
  have hopen := openings_concat_quiet lines hcategory hinstruction
  obtain ⟨earlier, hearlier, hlength⟩ :=
    @Keeps.open_segment lines d h (.data m) (by rw [hcurrent]; rfl)
  obtain ⟨padding, hpadding, hext, hlengths, hpending, offset', hcurrent'⟩ :=
    @padTo_extends (d.addLabels l.labels) m offset hcurrent _ hlength align l.number
  obtain ⟨hext', hlengths', hpending', hcategory'⟩ :=
    addPayload_extends hcurrent' ((hlengths (.data m)).trans hlength) p l.number
  rw [hpending] at hext'
  refine ⟨?_, ?_, ?_, fun before l' after hsplit hlabels => ?_⟩
  · refine h.program.extend hnumber (hext.trans hext') ?_ ?_ fun k => ?_
    · intro x hx
      rcases List.mem_append.1 hx with hx | hx
      · exact hpadding.line x hx
      · rw [List.mem_singleton.1 hx]
    · have hplace : (d.addLabels l.labels).pending = waiting lines ++ l.labels := by
        rw [← h.pending]
        rfl
      rw [hplace]
      exact .payload hs hp hearlier hpadding
    · rw [hopen, hlengths', hlengths]
      exact h.program.segments k
  · rw [hopen, hearlier, hcategory', List.getLast?_concat]
  · rw [hpending', waiting_concat, if_pos hentry]
  · exact .inl (h.carried_of_isEntry hentry hsplit hlabels)

/-- An instruction goes to the text segment that is open, in a draft `d₁` that may have one more of
them than `d`. -/
theorem Keeps.addInstruction {d₁ : Draft} (h : d.Keeps lines)
    (hnumber : ∀ l' ∈ lines, l'.number < l.number) {m : Mode} {text : ByteString}
    {inst : Instruction} (hs : l.statement = some (.instruction text))
    (hinst : Instruction.parse text = .ok inst)
    {earlier : List Category} (hopen : openings (lines ++ [l]) = earlier ++ [.text m])
    (hext : d.program.Extends d₁.program (.text m) [])
    (hlengths : ∀ k, (d₁.program.segments k).length = (openings (lines ++ [l])).count k)
    (hcurrent : d₁.current = .text m) (hpending : d₁.pending = d.pending ++ l.labels) :
    (d₁.addInstruction m inst l.number).Keeps (lines ++ [l]) := by
  have hentry : l.isEntry = true := by
    simp [SourceLine.isEntry, SourceLine.isInstruction_of_statement hs]
  have hlength : (d₁.program.text m).length = earlier.count (.text m) + 1 :=
    (hlengths (.text m)).trans (by simp [hopen])
  have hext' := addInstruction_extends hlength inst l.number
  rw [hpending, h.pending] at hext'
  refine ⟨?_, ?_, ?_, fun before l' after hsplit hlabels => ?_⟩
  · refine h.program.extend hnumber (hext.trans hext') (by simp) (.instruction hs hinst hopen) ?_
    exact fun k => (d₁.program.length_segments_addText m _ k).trans (hlengths k)
  · rw [hopen, List.getLast?_concat]
    exact congrArg OpenSegment.category? hcurrent
  · rw [waiting_concat, if_pos hentry]
    rfl
  · exact .inl (h.carried_of_isEntry hentry hsplit hlabels)

theorem Keeps.instruction (h : d.Keeps lines) (hnumber : ∀ l' ∈ lines, l'.number < l.number)
    {m : Mode} {text : ByteString} {inst : Instruction}
    (hs : l.statement = some (.instruction text)) (hinst : Instruction.parse text = .ok inst)
    (hcurrent : d.current = .text m) :
    ((d.addLabels l.labels).addInstruction m inst l.number).Keeps (lines ++ [l]) := by
  obtain ⟨earlier, hearlier, -⟩ := @Keeps.open_segment lines d h (.text m) (by rw [hcurrent]; rfl)
  have hopen : openings (lines ++ [l]) = openings lines := by
    rw [openings_concat_instruction lines (SourceLine.isInstruction_of_statement hs),
      if_neg (by simp [hearlier])]
  exact h.addInstruction hnumber hs hinst (hopen.trans hearlier) (.refl _ _)
    (hopen ▸ h.program.segments) hcurrent rfl

theorem Keeps.firstInstruction (h : d.Keeps lines) (hnumber : ∀ l' ∈ lines, l'.number < l.number)
    {text : ByteString} {inst : Instruction} (hs : l.statement = some (.instruction text))
    (hinst : Instruction.parse text = .ok inst) (hcurrent : d.current = .none) :
    (((d.addLabels l.labels).openSegment (.text .user) none).addInstruction .user inst
      l.number).Keeps (lines ++ [l]) := by
  have hnone : openings lines = [] := by
    rw [← List.getLast?_eq_none_iff, ← h.current, hcurrent]
    rfl
  have hopen : openings (lines ++ [l]) = [] ++ [.text .user] := by
    rw [openings_concat_instruction lines (SourceLine.isInstruction_of_statement hs), if_pos hnone]
    rfl
  refine h.addInstruction hnumber hs hinst hopen
    (d.program.extends_openSegment (.text .user) (.text .user) none) (fun k => ?_) rfl rfl
  refine (d.program.length_segments_openSegment (.text .user) k none).trans ?_
  rw [h.program.segments k, hnone, hopen]
  simp

/-- **One line.** A line without an error keeps the transcript. -/
theorem Keeps.step {d' : Draft} (h : d.Keeps lines) (hnumber : ∀ l' ∈ lines, l'.number < l.number)
    (ht : d.Takes l d') : d'.Keeps (lines ++ [l]) := by
  cases ht with
  | quiet hentry hcategory => exact h.quiet hnumber hentry hcategory
  | align hs hk _ hcurrent =>
    exact h.align hnumber _ (by simp [SourceLine.directive?, hs, hk]) hcurrent
  | segment start hcategory hpending hlabels =>
    exact h.segment hnumber start hcategory hpending hlabels
  | payload hs hp hcurrent => exact h.payload hnumber hs hp hcurrent
  | instruction hs hinst hcurrent => exact h.instruction hnumber hs hinst hcurrent
  | firstInstruction hs hinst hcurrent => exact h.firstInstruction hnumber hs hinst hcurrent

/-- **All lines.** Lines without an error, in ascending order, keep the transcript. -/
theorem Keeps.reads {d' : Draft} {more : List SourceLine} (h : d.Keeps lines)
    (hsorted : (lines ++ more).Pairwise fun l l' => l.number < l'.number)
    (hreads : d.Reads more d') : d'.Keeps (lines ++ more) :=
  hreads.run (fun lines d => d.Keeps lines) (fun _ _ _ _ h hnumber ht => h.step hnumber ht) h hsorted

end Steps

end Draft

/-- **The reader loses and invents nothing.** A source that is accepted is read line by line, and
the program says what the lines say: an instruction is one entry of the text segment that is open, a
directive of data one of the open data segment, after zeros at most, and with all labels since the
entry before; the only other entries are zeros for alignments; entries stand in the order of the
lines. The labels on the entries of the lines, one after the other, are the labels of the lines.
Those of a line are on the first entry of this or a later line, between those that waited before and
those that follow, and no segment is opened in between. -/
theorem Program.parse_transcribes {src : ByteString} {p : Program}
    (h : Program.parse src = .ok p) :
    ∃ lines, sourceLines src = .ok lines ∧ p.Transcribes lines ∧
      lines.flatMap (fun l => (p.depositsAt l.number).flatMap fun x => labelsOf x.place) =
        lines.flatMap (·.labels) ∧
      ∀ before l after, lines = before ++ l :: after → l.labels ≠ [] →
        ∃ run e rest, l :: after = run ++ e :: rest ∧
          (∀ l' ∈ run, l'.isEntry = false ∧ l'.category? = none) ∧ e.isEntry = true ∧
          ∃ x ∈ p.depositsAt e.number,
            labelsOf x.place = waiting before ++ (run ++ [e]).flatMap (·.labels) := by
  obtain ⟨lines, d, hlines, hreads, hpending, rfl⟩ := Program.parse_reads h
  have hkeeps : d.Keeps lines :=
    Draft.keeps_empty.reads (pairwise_number_of_sourceLines hlines) hreads
  have hall := hkeeps.program.labels_waiting (List.append_nil lines).symm
  rw [← hkeeps.pending, hpending, List.append_nil] at hall
  refine ⟨lines, hlines, hkeeps.program, hall, fun before l after hsplit hlabels => ?_⟩
  rcases hkeeps.carried before l after hsplit hlabels with ⟨run, e, rest, heq, he, hrun⟩ | ⟨hp, -⟩
  · refine ⟨run, e, rest, heq, hrun, he, ?_⟩
    have hadds := hkeeps.program.adds (before ++ run) e rest
      (by rw [hsplit, heq, List.append_assoc])
    obtain ⟨x, hx, hplace⟩ := hadds.exists_labels he
    refine ⟨x, hx, ?_⟩
    rw [hplace, waiting_append before fun l' hl' => (hrun l' hl').1]
    simp
  · exact absurd hpending hp

/-- A source with instructions before all segments, labels on lines of their own, and payloads that
need alignment. -/
def stackedSource : ByteString :=
  "a: b:\nc: addu $t0, $t1, $t2 # sum\n.data\nx: .byte 1\ny:\n.globl y\n z: .word 5\n" ++
    ".align 4\n.space 2\n.text\nj a\n"

/-- Stacked labels meet on one entry, the word comes after three zeros without labels, and the last
instruction is in the second text segment. -/
theorem Program.parse_transcribes_stacked :
    ∃ p lines, Program.parse stackedSource = .ok p ∧ sourceLines stackedSource = .ok lines ∧
      p.Transcribes lines ∧
      p.depositsAt 2 = [⟨.text .user, 0, some { labels := ["a", "b", "c"] },
        .inl (.register ⟨0x21⟩ ⟨9⟩ ⟨10⟩ ⟨8⟩ 0), 2⟩] ∧
      p.depositsAt 7 = [⟨.data .user, 0, none, .inr (.space 3), 7⟩,
        ⟨.data .user, 0, some { labels := ["y", "z"] }, .inr (.words [5] 0), 7⟩] ∧
      p.depositsAt 8 = [⟨.data .user, 0, none, .inr (.space 8), 8⟩] ∧
      p.depositsAt 11 = [⟨.text .user, 1, none, .inl (.jumpLabel ⟨2⟩ "a"), 11⟩] := by
  have hvalues : ((Program.parse stackedSource).toOption.map fun p =>
      (p.depositsAt 2, p.depositsAt 7, p.depositsAt 8, p.depositsAt 11)) =
      some ([⟨.text .user, 0, some { labels := ["a", "b", "c"] },
          .inl (.register ⟨0x21⟩ ⟨9⟩ ⟨10⟩ ⟨8⟩ 0), 2⟩],
        [⟨.data .user, 0, none, .inr (.space 3), 7⟩,
          ⟨.data .user, 0, some { labels := ["y", "z"] }, .inr (.words [5] 0), 7⟩],
        [⟨.data .user, 0, none, .inr (.space 8), 8⟩],
        [⟨.text .user, 1, none, .inl (.jumpLabel ⟨2⟩ "a"), 11⟩]) := by decide +kernel
  obtain ⟨p, hp, hvalues⟩ := Option.map_eq_some_iff.1 hvalues
  have hparse := eq_ok_of_toOption hp
  obtain ⟨lines, hlines, htranscribes, -⟩ := Program.parse_transcribes hparse
  simp only [Prod.mk.injEq] at hvalues
  exact ⟨p, lines, hparse, hlines, htranscribes, hvalues⟩

end MipsAssembler
