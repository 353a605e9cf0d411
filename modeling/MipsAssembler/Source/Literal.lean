import MipsAssembler.Source.Line

/-!
# Literals

Numbers in operands: numerals in any of the four bases with an optional sign, and characters between
single quotation marks. Every place for a number has a range, and a number outside it is refused.
-/

namespace MipsAssembler

open ByteString

/-- The value of a literal without blanks around it. -/
def literalValue (text : ByteString) : Except SourceError Int :=
  match text with
  | [] => .error .missingLiteral
  | b :: _ =>
    if b = ascii '\'' then
      match character? text with
      | some v => .ok v
      | none => .error (.badCharacter text)
    else
      match readInteger? text with
      | some v => .ok v
      | none => .error (.badNumber text)

/-- Reads a literal from `low` to `high`. -/
def readLiteral (low high : Int) (s : ByteString) : Except SourceError Int :=
  let text := trim s
  match literalValue text with
  | .error e => .error e
  | .ok v => if v < low ∨ high < v then .error (.outside text low high) else .ok v

/-- Reads literals with commas between them. -/
def readList (low high : Int) (s : ByteString) : Except SourceError (List Int) :=
  if trim s = [] then .error .missingList
  else (splitOperands s).mapM (readLiteral low high)

/-- Reads numbers of one byte, signed or not. -/
def readBytes (s : ByteString) : Except SourceError (List UInt8) :=
  (readList (-0x80) 0xFF s).map (·.map UInt8.ofInt)

/-- Reads numbers of two bytes, signed or not. -/
def readHalves (s : ByteString) : Except SourceError (List UInt16) :=
  (readList (-0x8000) 0xFFFF s).map (·.map UInt16.ofInt)

/-- Reads numbers of four bytes, signed or not. -/
def readWords (s : ByteString) : Except SourceError (List UInt32) :=
  (readList (-0x80000000) 0xFFFFFFFF s).map (·.map UInt32.ofInt)

end MipsAssembler
