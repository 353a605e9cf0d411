import MipsAssembler.ErrorKind
import MipsAssembler.Register

/-!
# Errors in source text

What can be wrong with a line of source text. An error that arises inside an operand may be wrapped
in the error of the directive or instruction that needed it; the innermost cause decides the kind.
-/

namespace MipsAssembler

open ByteString

/-- What is wrong with a line. -/
inductive SourceError where
  | register (error : Register.Error)
  | missingLiteral
  | badCharacter (text : ByteString)
  | badNumber (text : ByteString)
  /-- A number outside the range from `low` to `high` of its field. -/
  | outside (text : ByteString) (low high : Int)
  | missingList
  | badLabel (name : ByteString)
  /-- Labels before a segment directive. -/
  | labelsBeforeSegment (names : List ByteString)
  /-- Labels at the end of the source. -/
  | labelsAtEnd (names : List ByteString)
  | badStart (directive : ByteString) (cause : SourceError)
  | badAlignment (cause : SourceError)
  | alignmentInText (exponent : Int)
  | badSpace (cause : SourceError)
  | dataOutsideSegment (directive : ByteString)
  | badString (directive text : ByteString)
  | unknownDirective (directive : ByteString)
  | instructionInData
  | unknownMnemonic (text : ByteString)
  | noOperands (mnemonic : ByteString)
  | wrongForm (mnemonic form : ByteString)
  | badShift (cause : SourceError)
  | openParenthesis (text : ByteString)
  /-- Half of an address where the whole is loaded. -/
  | halfAddress (mnemonic label : ByteString)
  | labelExpected (text : ByteString)
  deriving DecidableEq, Repr

namespace SourceError

/-- The kind of an error. -/
def kind : SourceError → ErrorKind
  | outside .. => .fieldOverflow
  | badStart _ cause | badAlignment cause | badSpace cause | badShift cause => cause.kind
  | _ => .other

/-- The wording of an error. -/
def message : SourceError → ByteString
  | register e => e.message
  | missingLiteral => "expected a literal, got nothing"
  | badCharacter text => text ++ " is not a valid character literal"
  | badNumber text => quote text ++ " is not a valid number"
  | outside text low high =>
    "value does not fit into field: " ++ text ++ " is outside [" ++ decimal low ++ ", " ++
      decimal high ++ "]"
  | missingList => "expected a comma separated list of values, got nothing"
  | badLabel name => quote name ++ " is not a valid label name"
  | labelsBeforeSegment names =>
    "labels " ++ join ", " names ++
      " must be followed by an instruction or data in the same segment"
  | labelsAtEnd names =>
    "labels " ++ join ", " names ++ " are not followed by an instruction or data"
  | badStart directive cause => directive ++ " start address: " ++ cause.message
  | badAlignment cause => ".align: " ++ cause.message
  | alignmentInText exponent =>
    ".align " ++ decimal exponent ++ " is not supported in a text segment"
  | badSpace cause => ".space: " ++ cause.message
  | dataOutsideSegment directive => directive ++ " is only allowed in a data segment"
  | badString directive text =>
    directive ++ " expects a double quoted string, got " ++ quote text
  | unknownDirective directive =>
    "invalid directive " ++ quote directive ++
      ". Valid data directives are .byte, .half, .word, .space, .ascii, .asciiz and .align"
  | instructionInData => "instructions are only allowed in a text segment"
  | unknownMnemonic text => "invalid opcode " ++ quote text
  | noOperands mnemonic => mnemonic ++ " takes no operands"
  | wrongForm mnemonic form =>
    mnemonic ++ " must be in the form \"" ++ mnemonic ++ " " ++ form ++ "\""
  | badShift cause =>
    "cannot shift by more than 31 bits and cannot be a negative number: " ++ cause.message
  | openParenthesis text =>
    "invalid format, missing closing parenthesis in " ++ quote text
  | halfAddress mnemonic label =>
    mnemonic ++ " loads a whole address, use " ++ label ++ " without @hi or @lo"
  | labelExpected text => "la expects a label, got " ++ quote text

end SourceError

/-- An error and the line that it is in. -/
structure LineError where
  line : Int
  contents : ByteString
  error : SourceError
  deriving DecidableEq, Repr

end MipsAssembler
