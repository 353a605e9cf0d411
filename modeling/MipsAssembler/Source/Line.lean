import MipsAssembler.Source.Error

/-!
# Lines of source text

How a line is taken apart: a comment is cut off, labels are split off its start, and the operands of
what is left are separated. Commas, blanks and the comment mark between quotation marks belong to
the quoted text; `Quoting` keeps track of the marks.
-/

namespace MipsAssembler

open ByteString

/-- Where a byte of a line stands with regard to quotation marks. -/
inductive Quoting where
  | outside
  /-- Between marks of the given kind. -/
  | inside (mark : UInt8)
  /-- Between marks, after a backslash. -/
  | escaped (mark : UInt8)
  deriving DecidableEq, Repr

/-- Where the byte after `b` stands. -/
def Quoting.step : Quoting → UInt8 → Quoting
  | outside, b => if isQuotationMark b then inside b else outside
  | inside mark, b =>
    if b = ascii '\\' then escaped mark else if b = mark then outside else inside mark
  | escaped mark, _ => inside mark

/-- The text up to the first `#` outside quotation marks. -/
def stripCommentFrom : Quoting → ByteString → ByteString
  | _, [] => []
  | q, b :: bs =>
    if q = .outside ∧ b = ascii '#' then [] else b :: stripCommentFrom (q.step b) bs

/-- A line without its comment. -/
def stripComment (s : ByteString) : ByteString := stripCommentFrom .outside s

/-- The fields of a text between the commas outside quotation marks, without the spaces and tabs
outside quotation marks. -/
def splitOperandsFrom : Quoting → ByteString → List ByteString
  | _, [] => [[]]
  | q, b :: bs =>
    if q = .outside ∧ b = ascii ',' then [] :: splitOperandsFrom .outside bs
    else if q = .outside ∧ isGap b then splitOperandsFrom .outside bs
    else consHead b (splitOperandsFrom (q.step b) bs)

/-- The operands of an instruction or directive. -/
def splitOperands (s : ByteString) : List ByteString := splitOperandsFrom .outside s

/-- Can `b` start a name? -/
def isNameStart (b : UInt8) : Bool := b == ascii '_' || b == ascii '.' || isLetter b

/-- Is `s` a name: letters, digits, `_` and `.`, not starting with a digit? -/
def isName : ByteString → Bool
  | [] => false
  | b :: bs => isNameStart b && bs.all fun c => isNameStart c || isDigit c

/-- What follows a label that stands for the upper half of its address. -/
def upperEnding : ByteString := "@hi"

/-- What follows a label that stands for the lower half of its address. -/
def lowerEnding : ByteString := "@lo"

/-- Does `s` stand for half of an address? -/
def isHalf (s : ByteString) : Bool := upperEnding.isSuffixOf s || lowerEnding.isSuffixOf s

/-- A label without the endings for the halves of its address. -/
def wholeName (s : ByteString) : ByteString := stripEnding lowerEnding (stripEnding upperEnding s)

/-- Does an operand name a label or half of its address? -/
def isSymbol (s : ByteString) : Bool := isName (wholeName s)

/-- Does a colon after the text `s` belong to an operand? -/
def isOperandText (s : ByteString) : Bool := s.any fun b => isGap b || isQuotationMark b

/-- Splits labels off a line that is cut at its colons: `first` stands before the first colon that is
left. -/
def splitLabelsFrom (first : ByteString) :
    List ByteString → Except SourceError (List ByteString × ByteString)
  | [] => .ok ([], first)
  | next :: rest =>
    let name := trim first
    if isName name then
      (splitLabelsFrom (trimStart next) rest).map fun (labels, statement) =>
        (name :: labels, statement)
    else if isOperandText first then .ok ([], join ":" (first :: next :: rest))
    else .error (.badLabel name)

/-- The labels at the start of a line without blanks at its ends, and what follows them. -/
def splitLabels (line : ByteString) : Except SourceError (List ByteString × ByteString) :=
  match splitOn (ascii ':') line with
  | [] => .ok ([], [])
  | first :: rest => splitLabelsFrom first rest

/-- The first word of a text and what follows it without blanks. -/
def firstWord (s : ByteString) : ByteString × ByteString := (cutAt isGap s).map id trim

end MipsAssembler
