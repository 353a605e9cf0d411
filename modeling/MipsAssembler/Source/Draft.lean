import MipsAssembler.Program.Basic
import MipsAssembler.Source.Statement

/-!
# From source text to a program

`Program.parse` reads a source line by line into a draft: the program so far, the segment that is
open, and the labels that wait for the next entry. Nothing is placed here; an operand that names a
label is left as it is. Every line that is wrong is reported, and the program is returned only if
none is.

Instructions before the first segment directive open a text segment. In a data segment, halfwords
and words are aligned to their size, counted from the start of the segment, by entries of zeros.
-/

namespace MipsAssembler

open ByteString

/-! ## Directives -/

/-- The directives. -/
inductive Directive where
  /-- Opens a segment. -/
  | segment (category : Category)
  /-- Is accepted and does nothing. -/
  | ignored
  /-- Fills up with zeros to a power of two. -/
  | align
  | bytes
  | halves
  | words
  | space
  | text (terminated : Bool)
  deriving DecidableEq, Repr

/-- The names of the directives, in lower case. -/
def Directive.table : List (ByteString × Directive) :=
  [(".text", .segment (.text .user)), (".data", .segment (.data .user)),
   (".ktext", .segment (.text .kernel)), (".kdata", .segment (.data .kernel)),
   (".globl", .ignored), (".global", .ignored), (".extern", .ignored), (".set", .ignored),
   (".align", .align), (".byte", .bytes), (".half", .halves), (".halfword", .halves),
   (".word", .words), (".space", .space), (".ascii", .text false), (".asciiz", .text true)]

/-- The directive with a given name. -/
def Directive.ofName? (name : ByteString) : Option Directive := table.lookup name

/-- What a line says after its labels. -/
inductive Statement where
  | directive (name arguments : ByteString)
  | instruction (text : ByteString)
  deriving DecidableEq, Repr

/-- The statement of a text: a directive starts with a point. The case of its name does not
matter. -/
def Statement.ofText (s : ByteString) : Statement :=
  if s.head? = some (ascii '.') then
    let (word, arguments) := firstWord s
    .directive (lower word) arguments
  else .instruction s

/-! ## Drafts -/

/-- The segment that is open. -/
inductive OpenSegment where
  | none
  | text (mode : Mode)
  /-- A data segment, with the number of bytes that it has so far. -/
  | data (mode : Mode) (offset : UInt32)
  deriving DecidableEq, Repr

/-- A program in the making. -/
structure Draft where
  program : Program := {}
  current : OpenSegment := .none
  /-- The labels since the last entry. -/
  pending : List ByteString := []
  deriving DecidableEq, Repr

namespace Draft

/-- Opens a segment. -/
def openSegment (k : Category) (start : Option UInt32) (d : Draft) : Draft :=
  { d with
    program := d.program.openSegment k start
    current := match k with
      | .text m => .text m
      | .data m => .data m 0 }

/-- The place of the next entry: it has the labels that wait for it, if there are any. -/
def nextPlace (d : Draft) : Option Location :=
  if d.pending = [] then none else some { labels := d.pending }

/-- Adds a payload, without labels, to the open data segment. -/
def addPadding (m : Mode) (offset count : UInt32) (line : Int) (d : Draft) : Draft :=
  { d with
    program := d.program.addData m { place := none, item := .space count, line }
    current := .data m (offset + count) }

/-- Fills the open data segment up with zeros to a multiple of `align`. -/
def padTo (align : UInt32) (line : Int) (d : Draft) : Draft :=
  match d.current with
  | .data m offset =>
    if offset % align = 0 then d else d.addPadding m offset (align - offset % align) line
  | _ => d

/-- Adds a payload to the open data segment; it takes the labels that wait. -/
def addPayload (p : Payload) (line : Int) (d : Draft) : Draft :=
  match d.current with
  | .data m offset =>
    { program := d.program.addData m { place := d.nextPlace, item := p, line }
      current := .data m (offset + p.size)
      pending := [] }
  | _ => d

/-- The start address that a segment directive asks for. -/
def startAddress (name arguments : ByteString) : Except SourceError (Option UInt32) :=
  if arguments = [] then .ok none
  else match readLiteral 1 0xFFFFFFFF arguments with
    | .ok v => .ok (some (UInt32.ofInt v))
    | .error e => .error (.badStart name e)

/-- A segment directive. No labels may wait, for they would belong to the segment before; if some
do, they are dropped. -/
def applySegment (k : Category) (name arguments : ByteString) (d : Draft) :
    Draft × Option SourceError :=
  if d.pending = [] then
    match startAddress name arguments with
    | .ok start => (d.openSegment k start, none)
    | .error e => (d, some e)
  else ({ d with pending := [] }, some (.labelsBeforeSegment d.pending))

/-- An alignment. Outside data segments everything is aligned to words, so that nothing is to be
done, and more than that is refused. -/
def applyAlign (arguments : ByteString) (line : Int) (d : Draft) : Draft × Option SourceError :=
  match readLiteral 0 12 arguments with
  | .error e => (d, some (.badAlignment e))
  | .ok n =>
    match d.current with
    | .data .. => (d.padTo (UInt32.ofNat (1 <<< n.toNat)) line, none)
    | _ => if 2 < n then (d, some (.alignmentInText n)) else (d, none)

/-- The alignment of a data directive and its payload. -/
def payloadOf (name arguments : ByteString) : Option Directive →
    Except SourceError (UInt32 × Payload)
  | some .bytes => (readBytes arguments).map fun vs => (1, .bytes vs 0)
  | some .halves => (readHalves arguments).map fun vs => (2, .halves vs 0)
  | some .words => (readWords arguments).map fun vs => (4, .words vs 0)
  | some .space =>
    match readLiteral 0 0x7FFFFFFF arguments with
    | .ok n => .ok (1, .space (UInt32.ofInt n))
    | .error e => .error (.badSpace e)
  | some (.text terminated) =>
    match unquote? arguments with
    | some chars => .ok (1, .text chars terminated 0)
    | none => .error (.badString name arguments)
  | _ => .error (.unknownDirective name)

/-- A data directive, or one that is not known. -/
def applyData (directive : Option Directive) (name arguments : ByteString) (line : Int)
    (d : Draft) : Draft × Option SourceError :=
  match d.current with
  | .data .. =>
    match payloadOf name arguments directive with
    | .ok (align, p) => ((d.padTo align line).addPayload p line, none)
    | .error e => (d, some e)
  | _ => (d, some (.dataOutsideSegment name))

/-- An instruction. The labels that wait are its labels, also when it is wrong. -/
def applyInstruction (text : ByteString) (line : Int) (d : Draft) : Draft × Option SourceError :=
  let addTo (m : Mode) (d : Draft) : Draft × Option SourceError :=
    let taken := { d with pending := [] }
    match Instruction.parse text with
    | .ok inst =>
      ({ taken with program := d.program.addText m { place := d.nextPlace, item := inst, line } },
        none)
    | .error e => (taken, some e)
  match d.current with
  | .data .. => (d, some .instructionInData)
  | .text m => addTo m d
  | .none => addTo .user (d.openSegment (.text .user) none)

/-- One statement. -/
def apply (line : Int) (d : Draft) : Statement → Draft × Option SourceError
  | .directive name arguments =>
    match Directive.ofName? name with
    | some (.segment k) => d.applySegment k name arguments
    | some .ignored => (d, none)
    | some .align => d.applyAlign arguments line
    | directive => d.applyData directive name arguments line
  | .instruction text => d.applyInstruction text line

/-- A line without its comment and without blanks at its ends. -/
def applyLine (line : Int) (d : Draft) (text : ByteString) : Draft × Option SourceError :=
  match splitLabels text with
  | .error e => (d, some e)
  | .ok (labels, rest) =>
    let labelled := { d with pending := d.pending ++ labels }
    if rest = [] then (labelled, none) else labelled.apply line (.ofText rest)

end Draft

/-! ## Sources -/

/-- How far a source is read. -/
structure Reading where
  draft : Draft := {}
  errors : List LineError := []
  /-- The number and the contents of the last line that was not blank. -/
  last : Int × ByteString := (0, [])
  deriving DecidableEq, Repr

namespace Reading

/-- Reads one line. -/
def step (r : Reading) (raw : ByteString) (number : Nat) : Reading :=
  let contents := strip isMargin raw
  let text := trim (stripComment contents)
  if text = [] then r
  else
    let (draft, error) := r.draft.applyLine number text
    { draft
      errors := r.errors ++ error.toList.map fun e => { line := number, contents, error := e }
      last := (number, contents) }

/-- Reads all lines of a source. -/
def ofSource (src : ByteString) : Reading :=
  ((splitOn (ascii '\n') src).zipIdx 1).foldl (fun r (raw, number) => r.step raw number) {}

/-- All errors of a source, with the one for labels that are left over at its end. -/
def allErrors (r : Reading) : List LineError :=
  if r.draft.pending = [] then r.errors
  else r.errors ++
    [{ line := r.last.1, contents := r.last.2, error := .labelsAtEnd r.draft.pending }]

end Reading

/-- Reads a source. -/
def Program.parse (src : ByteString) : Except (List LineError) Program :=
  let r := Reading.ofSource src
  if r.allErrors = [] then .ok r.draft.program else .error r.allErrors

end MipsAssembler
