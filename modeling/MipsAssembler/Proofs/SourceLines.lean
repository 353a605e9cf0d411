import Mathlib.Data.List.Forall2
import MipsAssembler.Proofs.PlainText

/-!
# A source line by line

A line of a source has labels at its start and a statement, either of which may be missing
(`SourceLine`). Together they account for the line, up to its comment and blanks
(`SourceLine.read_eq_ok`). `Draft.Takes` says all that a line without an error can do to a draft, and
`Program.parse_reads` that a program that is read from a source is what its lines do, one after the
other, to the empty draft. Later modules look at these two only and not at the reader.
-/

namespace MipsAssembler

open ByteString Outcome

/-! ## Lines -/

/-- Does the directive put an entry into a data segment? -/
def Directive.isData : Directive → Bool
  | .bytes | .halves | .words | .space | .text _ => true
  | .segment _ | .ignored | .align => false

/-- The names of the directives of data. -/
def Directive.dataNames : List ByteString :=
  [".byte", ".half", ".halfword", ".word", ".space", ".ascii", ".asciiz"]

theorem Directive.isData_ofName? {name : ByteString} :
    (ofName? name).any isData = true ↔ name ∈ dataNames := by
  constructor
  · intro h
    obtain ⟨directive, hname, hdata⟩ := (Option.any_eq_true _ _).1 h
    obtain ⟨before, after, hsplit, -⟩ := List.lookup_eq_some_iff.1 hname
    have hall : ∀ e ∈ table, e.2.isData = true → e.1 ∈ dataNames := by decide +kernel
    exact hall (name, directive) (by simp [hsplit]) hdata
  · revert name
    decide +kernel

/-- A line of a source: its number, the labels at its start, and what it says after them. -/
structure SourceLine where
  number : Nat
  labels : List ByteString
  statement : Option Statement
  deriving DecidableEq, Repr

namespace SourceLine

/-- The directive of a line, if it has a known one. -/
def directive? (l : SourceLine) : Option Directive :=
  match l.statement with
  | some (.directive name _) => Directive.ofName? name
  | _ => none

/-- Is the statement an instruction? -/
def isInstruction (l : SourceLine) : Bool :=
  match l.statement with
  | some (.instruction _) => true
  | _ => false

/-- Does the line say what an entry of the program is, an instruction or a payload? -/
def isEntry (l : SourceLine) : Bool := l.isInstruction || l.directive?.any Directive.isData

/-- The category of the segment that the line opens. -/
def category? (l : SourceLine) : Option Category :=
  match l.directive? with
  | some (.segment k) => some k
  | _ => none

/-- Reads a line: without its comment, and without blanks around what is left. -/
def read (raw : ByteString) (number : Nat) : Except SourceError SourceLine :=
  (splitLabels (trim (stripComment (strip isMargin raw)))).map fun (labels, rest) =>
    { number, labels, statement := if rest = [] then none else some (.ofText rest) }

end SourceLine

/-- The lines of a source, counted from one. -/
def sourceLines (src : ByteString) : Except SourceError (List SourceLine) :=
  ((splitOn (ascii '\n') src).zipIdx 1).mapM fun (raw, number) => SourceLine.read raw number

/-- A line says what an entry is if it has an instruction or one of the seven directives of data. -/
theorem SourceLine.isEntry_iff {l : SourceLine} :
    l.isEntry = true ↔ (∃ text, l.statement = some (.instruction text)) ∨
      ∃ name ∈ Directive.dataNames, ∃ arguments, l.statement = some (.directive name arguments) := by
  rw [isEntry, isInstruction, directive?]
  cases l.statement with
  | none => simp
  | some s =>
    cases s with
    | instruction text => simp
    | directive name arguments => simp [Directive.isData_ofName?]

/-- A line is read if labels and a statement account for it. -/
theorem SourceLine.read_eq_ok {raw : ByteString} {number : Nat} {l : SourceLine} :
    read raw number = .ok l ↔ ∃ rest,
      Labelled (trim (stripComment (strip isMargin raw))) l.labels rest ∧ l.number = number ∧
        l.statement = if rest = [] then none else some (.ofText rest) := by
  rw [read, map_eq_ok]
  constructor
  · rintro ⟨⟨labels, rest⟩, hlabels, rfl⟩
    exact ⟨rest, splitLabels_eq_ok.1 hlabels, rfl, rfl⟩
  · rintro ⟨rest, hlabels, rfl, hstatement⟩
    refine ⟨(l.labels, rest), splitLabels_eq_ok.2 hlabels, ?_⟩
    dsimp only
    rw [← hstatement]

/-- The numbers of the lines of a source ascend. -/
theorem pairwise_number_of_sourceLines {src : ByteString} {lines : List SourceLine}
    (h : sourceLines src = .ok lines) : lines.Pairwise fun l l' => l.number < l'.number := by
  have hnumbers : lines.map (·.number) =
      List.range' 1 (splitOn (ascii '\n') src).length := by
    rw [← List.zipIdx_map_snd 1]
    refine (map_eq_map_of_forall₂ ?_ (mapM_eq_ok.1 h)).symm
    rintro ⟨raw, number⟩ l hl
    obtain ⟨-, -, hnumber, -⟩ := SourceLine.read_eq_ok.1 hl
    exact hnumber.symm
  rw [← List.pairwise_map (f := SourceLine.number), hnumbers]
  exact List.pairwise_lt_range'

/-! ## What a line does -/

namespace Draft

/-- The draft with more labels that wait. -/
def addLabels (labels : List ByteString) (d : Draft) : Draft :=
  { d with pending := d.pending ++ labels }

/-- The draft with an instruction more, which takes the labels that wait. -/
def addInstruction (m : Mode) (inst : Instruction) (line : Int) (d : Draft) : Draft :=
  { d with
    pending := []
    program := d.program.addText m { place := d.nextPlace, item := inst, line } }

/-- What a line without an error does to a draft. -/
inductive Takes (d : Draft) (l : SourceLine) : Draft → Prop
  /-- The line has labels at most, or is an alignment where no data segment is open. -/
  | quiet : l.isEntry = false → l.category? = none →
      (l.directive? = some .align → ∀ m offset, d.current ≠ .data m offset) →
      Takes d l (d.addLabels l.labels)
  /-- The line aligns the open data segment. -/
  | align {m : Mode} {offset : UInt32} {name arguments : ByteString} {n : Int} :
      l.statement = some (.directive name arguments) → Directive.ofName? name = some .align →
      readLiteral 0 12 arguments = .ok n → d.current = .data m offset →
      Takes d l ((d.addLabels l.labels).padTo (UInt32.ofNat (1 <<< n.toNat)) l.number)
  /-- The line opens a segment; no labels may wait. -/
  | segment {k : Category} (start : Option UInt32) : l.category? = some k → d.pending = [] →
      l.labels = [] → Takes d l (d.openSegment k start)
  /-- The line adds a payload to the open data segment. -/
  | payload {m : Mode} {offset : UInt32} {name arguments : ByteString} {align : UInt32}
      {p : Payload} : l.statement = some (.directive name arguments) →
      payloadOf name arguments (Directive.ofName? name) = .ok (align, p) →
      d.current = .data m offset →
      Takes d l (((d.addLabels l.labels).padTo align l.number).addPayload p l.number)
  /-- The line adds an instruction to the open text segment. -/
  | instruction {m : Mode} {text : ByteString} {inst : Instruction} :
      l.statement = some (.instruction text) → Instruction.parse text = .ok inst →
      d.current = .text m → Takes d l ((d.addLabels l.labels).addInstruction m inst l.number)
  /-- The line adds an instruction, and a text segment is opened for it. -/
  | firstInstruction {text : ByteString} {inst : Instruction} :
      l.statement = some (.instruction text) → Instruction.parse text = .ok inst →
      d.current = .none →
      Takes d l (((d.addLabels l.labels).openSegment (.text .user) none).addInstruction .user inst
        l.number)

/-! ## Reading without errors -/

/-- Only directives of data have a payload. -/
theorem isData_of_payloadOf {name arguments : ByteString} {directive : Option Directive}
    {r : UInt32 × Payload} (h : payloadOf name arguments directive = .ok r) :
    directive.any Directive.isData = true := by
  cases directive with
  | none => cases h
  | some directive =>
    cases directive with
    | segment k => cases h
    | ignored => cases h
    | align => cases h
    | bytes | halves | words | space | text => rfl

section Inversion

variable {d d' : Draft} {line : Int}

theorem applySegment_inv {k : Category} {name arguments : ByteString}
    (h : d.applySegment k name arguments = (d', none)) :
    d.pending = [] ∧ ∃ start, d' = d.openSegment k start := by
  rw [applySegment] at h
  split at h
  · rename_i hpending
    split at h
    · rename_i start hstart
      exact ⟨hpending, start, (Prod.mk.inj h).1.symm⟩
    · simp at h
  · simp at h

theorem applyAlign_inv {arguments : ByteString} (h : d.applyAlign arguments line = (d', none)) :
    (∃ m offset n, readLiteral 0 12 arguments = .ok n ∧ d.current = .data m offset ∧
        d' = d.padTo (UInt32.ofNat (1 <<< n.toNat)) line) ∨
      (∀ m offset, d.current ≠ .data m offset) ∧ d' = d := by
  rw [applyAlign] at h
  split at h
  · simp at h
  · rename_i n hn
    split at h
    · rename_i m offset hcurrent
      exact .inl ⟨m, offset, n, hn, hcurrent, (Prod.mk.inj h).1.symm⟩
    · rename_i hclosed
      split at h
      · simp at h
      · exact .inr ⟨hclosed, (Prod.mk.inj h).1.symm⟩

theorem applyData_inv {directive : Option Directive} {name arguments : ByteString}
    (h : d.applyData directive name arguments line = (d', none)) :
    ∃ m offset align p, d.current = .data m offset ∧
      payloadOf name arguments directive = .ok (align, p) ∧
      d' = (d.padTo align line).addPayload p line := by
  rw [applyData] at h
  split at h
  · rename_i m offset hcurrent
    split at h
    · rename_i align p hp
      exact ⟨m, offset, align, p, hcurrent, hp, (Prod.mk.inj h).1.symm⟩
    · simp at h
  · simp at h

theorem applyInstruction_inv {text : ByteString}
    (h : d.applyInstruction text line = (d', none)) :
    ∃ inst, Instruction.parse text = .ok inst ∧
      ((∃ m, d.current = .text m ∧ d' = d.addInstruction m inst line) ∨
        d.current = .none ∧
          d' = (d.openSegment (.text .user) none).addInstruction .user inst line) := by
  rw [applyInstruction] at h
  split at h
  · simp at h
  · rename_i m hcurrent
    dsimp only at h
    split at h
    · rename_i inst hinst
      exact ⟨inst, hinst, .inl ⟨m, hcurrent, (Prod.mk.inj h).1.symm⟩⟩
    · simp at h
  · rename_i hcurrent
    dsimp only at h
    split at h
    · rename_i inst hinst
      exact ⟨inst, hinst, .inr ⟨hcurrent, (Prod.mk.inj h).1.symm⟩⟩
    · simp at h

end Inversion

@[simp] theorem addLabels_nil (d : Draft) : d.addLabels [] = d := by simp [addLabels]

/-- A statement without an error does one of the things that a line does. -/
theorem takes_of_apply {d d' : Draft} {l : SourceLine} {s : Statement} (hs : l.statement = some s)
    (h : (d.addLabels l.labels).apply l.number s = (d', none)) : d.Takes l d' := by
  cases s with
  | instruction text =>
    obtain ⟨inst, hinst, ⟨m, hcurrent, rfl⟩ | ⟨hcurrent, rfl⟩⟩ := applyInstruction_inv h
    · exact .instruction hs hinst hcurrent
    · exact .firstInstruction hs hinst hcurrent
  | directive name arguments =>
    have hdirective : l.directive? = Directive.ofName? name := by simp [SourceLine.directive?, hs]
    have hinstruction : l.isInstruction = false := by simp [SourceLine.isInstruction, hs]
    rw [apply] at h
    split at h
    · rename_i k hk
      obtain ⟨hpending, start, rfl⟩ := applySegment_inv h
      obtain ⟨hpending, hlabels⟩ := List.append_eq_nil_iff.1 hpending
      rw [hlabels, addLabels_nil]
      exact .segment start (by simp [SourceLine.category?, hdirective, hk]) hpending hlabels
    · rename_i hk
      obtain rfl := (Prod.mk.inj h).1
      refine .quiet ?_ ?_ ?_
      · simp [SourceLine.isEntry, hinstruction, hdirective, hk, Directive.isData]
      · simp [SourceLine.category?, hdirective, hk]
      · simp [hdirective, hk]
    · rename_i hk
      rcases applyAlign_inv h with ⟨m, offset, n, hn, hcurrent, rfl⟩ | ⟨hclosed, rfl⟩
      · exact .align hs hk hn hcurrent
      · rw [hk] at hdirective
        refine .quiet ?_ ?_ fun _ => hclosed
        · simp [SourceLine.isEntry, hinstruction, hdirective, Directive.isData]
        · simp [SourceLine.category?, hdirective]
    · obtain ⟨m, offset, align, p, hcurrent, hp, rfl⟩ := applyData_inv h
      exact .payload hs hp hcurrent

/-- A line without an error is read, and does one of the things that a line does. -/
theorem takes_of_applyLine {d d' : Draft} {raw : ByteString} {number : Nat}
    (h : d.applyLine number (trim (stripComment (strip isMargin raw))) = (d', none)) :
    ∃ l, SourceLine.read raw number = .ok l ∧ d.Takes l d' := by
  rw [applyLine] at h
  split at h
  · simp at h
  · rename_i labels rest hlabels
    refine ⟨_, map_eq_ok.2 ⟨_, hlabels, rfl⟩, ?_⟩
    dsimp only at h ⊢
    split at h <;> rename_i hrest
    · rw [if_pos hrest]
      obtain rfl := (Prod.mk.inj h).1
      exact .quiet rfl rfl (by simp [SourceLine.directive?])
    · rw [if_neg hrest]
      exact takes_of_apply rfl h

/-- What lines do one after the other. -/
inductive Reads : Draft → List SourceLine → Draft → Prop
  | nil {d : Draft} : Reads d [] d
  | cons {d d₁ d₂ : Draft} {l : SourceLine} {lines : List SourceLine} :
      d.Takes l d₁ → Reads d₁ lines d₂ → Reads d (l :: lines) d₂

/-- What every line keeps, if it comes after the lines that are read, all lines keep together. -/
theorem Reads.run (Inv : List SourceLine → Draft → Prop)
    (hstep : ∀ lines d l d', Inv lines d → (∀ l' ∈ lines, l'.number < l.number) → d.Takes l d' →
      Inv (lines ++ [l]) d')
    {lines more : List SourceLine} {d d' : Draft} (h : Inv lines d)
    (hsorted : (lines ++ more).Pairwise fun l l' => l.number < l'.number)
    (hreads : d.Reads more d') : Inv (lines ++ more) d' := by
  induction hreads generalizing lines with
  | nil => simpa using h
  | @cons d d₁ d₂ l more htakes _ ih =>
    have hsplit : lines ++ l :: more = (lines ++ [l]) ++ more := by simp
    have hnumber : ∀ l' ∈ lines, l'.number < l.number := by
      intro l' hl'
      exact (List.pairwise_append.1 hsorted).2.2 l' hl' l (by simp)
    rw [hsplit] at hsorted ⊢
    exact ih (hstep lines d l d₁ h hnumber htakes) hsorted

end Draft

/-- A line that is read without an error takes the draft on. -/
theorem Reading.takes_of_step {r : Reading} {raw : ByteString} {number : Nat}
    (h : (r.step raw number).errors = []) :
    r.errors = [] ∧ ∃ l, SourceLine.read raw number = .ok l ∧
      r.draft.Takes l (r.step raw number).draft := by
  simp only [Reading.step] at h ⊢
  split at h <;> rename_i hblank
  · rw [if_pos hblank]
    refine ⟨h, ⟨number, [], none⟩, ?_, ?_⟩
    · rw [SourceLine.read, hblank]
      rfl
    · have hquiet : r.draft.Takes ⟨number, [], none⟩ (r.draft.addLabels []) :=
        .quiet rfl rfl (by simp [SourceLine.directive?])
      simpa using hquiet
  · rw [if_neg hblank]
    obtain ⟨hr, herror⟩ := List.append_eq_nil_iff.1 h
    refine ⟨hr, Draft.takes_of_applyLine (Prod.ext rfl ?_)⟩
    simpa using herror

/-- Lines that are read without an error take the draft on, one after the other. -/
theorem Reading.reads_of_foldl {numbered : List (ByteString × Nat)} {r : Reading}
    (h : (numbered.foldl (fun r (raw, number) => r.step raw number) r).errors = []) :
    r.errors = [] ∧ ∃ lines,
      numbered.mapM (fun (raw, number) => SourceLine.read raw number) = .ok lines ∧
      r.draft.Reads lines (numbered.foldl (fun r (raw, number) => r.step raw number) r).draft := by
  induction numbered generalizing r with
  | nil => exact ⟨h, [], rfl, .nil⟩
  | cons first numbered ih =>
    obtain ⟨raw, number⟩ := first
    obtain ⟨herrors, lines, hlines, hreads⟩ := ih h
    obtain ⟨herrors, l, hl, htakes⟩ := Reading.takes_of_step herrors
    refine ⟨herrors, l :: lines, ?_, .cons htakes hreads⟩
    rw [List.mapM_cons]
    exact bind_eq_ok.2 ⟨l, hl, bind_eq_ok.2 ⟨lines, hlines, rfl⟩⟩

/-- A program that is read from a source is what the lines of the source do to the empty draft, and no
labels are left over. -/
theorem Program.parse_reads {src : ByteString} {p : Program} (h : Program.parse src = .ok p) :
    ∃ lines d, sourceLines src = .ok lines ∧ Draft.Reads {} lines d ∧ d.pending = [] ∧
      d.program = p := by
  simp only [Program.parse] at h
  split at h <;> rename_i herrors
  · rw [Reading.allErrors] at herrors
    split at herrors <;> rename_i hpending
    · obtain ⟨-, lines, hlines, hreads⟩ := Reading.reads_of_foldl herrors
      exact ⟨lines, _, hlines, hreads, hpending, Except.ok.inj h⟩
    · simp at herrors
  · cases h

end MipsAssembler
