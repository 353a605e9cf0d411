/-!
# Byte strings

Source files, label names and reports are strings of bytes: a source file need not be valid UTF-8,
and lines are measured and cut in bytes. This module holds the operations that look at single bytes;
`MipsAssembler.ByteString.Glyph` reads a byte string as characters.

* `ofString` is the UTF-8 form of a string and serves as the coercion, so that messages are written
  as `"line " ++ decimal n ++ ": " ++ text`.
* `splitOn` and `cutAt` cut a text in pieces, `strip` and `stripEnding` shorten it.
-/

namespace MipsAssembler

/-- A string of bytes. -/
abbrev ByteString := List UInt8

namespace ByteString

/-- The UTF-8 form of a string. -/
def ofString (s : String) : ByteString := s.toList.flatMap String.utf8EncodeChar

instance : Coe String ByteString := ⟨ofString⟩

/-- The byte of an ASCII character. -/
def ascii (c : Char) : UInt8 := UInt8.ofNat c.toNat

/-- Is `b` a space or a tab? -/
def isGap (b : UInt8) : Bool := b == ascii ' ' || b == ascii '\t'

/-- Is `b` a space, a tab, a carriage return or a line feed? -/
def isMargin (b : UInt8) : Bool := isGap b || b == ascii '\r' || b == ascii '\n'

/-- Is `b` one of the two quotation marks? -/
def isQuotationMark (b : UInt8) : Bool := b == ascii '"' || b == ascii '\''

/-- Is `b` an ASCII digit? -/
def isDigit (b : UInt8) : Bool := ascii '0' ≤ b && b ≤ ascii '9'

/-- Is `b` an ASCII letter? -/
def isLetter (b : UInt8) : Bool :=
  (ascii 'a' ≤ b && b ≤ ascii 'z') || (ascii 'A' ≤ b && b ≤ ascii 'Z')

/-- `b` before the first of some pieces of text. -/
def consHead (b : UInt8) : List ByteString → List ByteString
  | [] => [[b]]
  | piece :: pieces => (b :: piece) :: pieces

/-- The pieces of `s` between the bytes `sep`; there is one more piece than there are separators. -/
def splitOn (sep : UInt8) : ByteString → List ByteString
  | [] => [[]]
  | b :: bs => if b = sep then [] :: splitOn sep bs else consHead b (splitOn sep bs)

/-- `s` without the bytes that satisfy `p` at its two ends. -/
def strip (p : UInt8 → Bool) (s : ByteString) : ByteString :=
  ((s.dropWhile p).reverse.dropWhile p).reverse

/-- `s` without `ending`, if it ends so. -/
def stripEnding (ending s : ByteString) : ByteString :=
  if ending.isSuffixOf s then s.take (s.length - ending.length) else s

/-- What stands before the first byte that satisfies `p`, and what stands after it. -/
def cutAt (p : UInt8 → Bool) : ByteString → ByteString × ByteString
  | [] => ([], [])
  | b :: bs => if p b then ([], bs) else (cutAt p bs).map (b :: ·) id

/-- The texts of `parts` with `sep` between them. -/
def join (sep : ByteString) (parts : List ByteString) : ByteString := sep.intercalate parts

/-- At most the first `n` bytes of `s`; a character may be cut in two. -/
def cutTo (n : Nat) (s : ByteString) : ByteString := s.take n

/-- One line of a report. -/
def line (s : ByteString) : ByteString := s ++ [ascii '\n']

end ByteString

end MipsAssembler
