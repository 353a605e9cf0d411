import MipsAssembler.ByteString.Blank
import MipsAssembler.ByteString.Numeral
import MipsAssembler.ByteString.Printable

/-!
# Quoted text

The written form of strings and characters between quotation marks.

* `quote` writes any byte string between double quotation marks. Printable characters stand for
  themselves, control characters have short escapes, and stray bytes are written `\xNN`.
* `unquote?` reads a string between double quotation marks, `character?` the code point of a
  character between single ones.

Reading is more liberal than writing: octal escapes are read as well, and a stray byte between the
marks is read as U+FFFD.
-/

namespace MipsAssembler

namespace ByteString

/-! ## Writing -/

/-- The control characters with an escape of one letter. -/
def shortEscapes : List (Nat × Char) :=
  [(7, 'a'), (8, 'b'), (9, 't'), (10, 'n'), (11, 'v'), (12, 'f'), (13, 'r')]

/-- How a quoted text writes the character `c`. -/
def quoteChar (c : Char) : ByteString :=
  if c = '"' ∨ c = '\\' then "\\" ++ String.utf8EncodeChar c
  else if isPrintable c then String.utf8EncodeChar c
  else match shortEscapes.lookup c.toNat with
    | some letter => [ascii '\\', ascii letter]
    | none =>
      if c.toNat < 0x80 then "\\x" ++ lowerHex 2 c.toNat
      else if c.toNat < 0x10000 then "\\u" ++ lowerHex 4 c.toNat
      else "\\U" ++ lowerHex 8 c.toNat

/-- How a quoted text writes a glyph. -/
def quoteGlyph : Glyph → ByteString
  | .char c => quoteChar c
  | .stray b => "\\x" ++ lowerHex 2 b.toNat

/-- `s` between double quotation marks. -/
def quote (s : ByteString) : ByteString := "\"" ++ (glyphs s).flatMap quoteGlyph ++ "\""

/-! ## Reading -/

/-- The number that the first `n` bytes of `s` write to the given base, all of them digits. -/
def fixedDigits? (base n : Nat) (s : ByteString) : Option Nat :=
  if n ≤ s.length then
    (s.take n).foldlM (fun v b => (digitOf? base b).map (v * base + ·)) 0
  else none

/-- The UTF-8 form of the character with code point `v`. -/
def codePoint? (v : Nat) : Option ByteString := (scalar 0 v).map String.utf8EncodeChar

/-- What the escape after a backslash denotes, and how many bytes it takes. The text is between
marks `mark`, and only that mark can be escaped. -/
def escape? (mark : UInt8) : ByteString → Option (ByteString × Nat)
  | [] => none
  | b :: rest =>
    if b = ascii 'x' then (fixedDigits? 16 2 rest).map fun v => ([UInt8.ofNat v], 3)
    else if b = ascii 'u' then ((fixedDigits? 16 4 rest).bind codePoint?).map (·, 5)
    else if b = ascii 'U' then ((fixedDigits? 16 8 rest).bind codePoint?).map (·, 9)
    else if ascii '0' ≤ b ∧ b ≤ ascii '7' then
      ((fixedDigits? 8 3 (b :: rest)).filter (· < 0x100)).map fun v => ([UInt8.ofNat v], 3)
    else if b = ascii '\\' ∨ b = mark then some ([b], 1)
    else (shortEscapes.find? fun (_, letter) => ascii letter = b).map fun (n, _) =>
      ([UInt8.ofNat n], 1)

/-- What the character at the byte `b` before `rest` denotes between marks `mark`, and how many
bytes of `rest` belong to it. -/
def literalChar? (mark b : UInt8) (rest : ByteString) : Option (ByteString × Nat) :=
  if b = ascii '\n' then none
  else if b = ascii '\\' then escape? mark rest
  else match leadingChar b rest with
    | some (c, more) => some (String.utf8EncodeChar c, more)
    | none => some (String.utf8EncodeChar Glyph.replacement, 0)

/-- Reads up to the closing mark: what the text denotes, and what follows the mark. The first `skip`
bytes belong to a character already read. -/
def literalBody? (mark : UInt8) : Nat → ByteString → Option (ByteString × ByteString)
  | _, [] => none
  | skip + 1, _ :: bs => literalBody? mark skip bs
  | 0, b :: bs =>
    if b = mark then some ([], bs)
    else do
      let (denoted, more) ← literalChar? mark b bs
      let (text, rest) ← literalBody? mark more bs
      return (denoted ++ text, rest)

/-- The byte string that a text between double quotation marks denotes. -/
def unquote? : ByteString → Option ByteString
  | [] => none
  | b :: bs =>
    if b = ascii '"' then
      match literalBody? (ascii '"') 0 bs with
      | some (text, []) => some text
      | _ => none
    else none

/-- The code point of one character between single quotation marks. A byte written as an escape
counts as the character that it shows. -/
def character? : ByteString → Option Nat
  | m :: b :: bs =>
    if m = ascii '\'' ∧ b ≠ ascii '\'' then do
      let (denoted, more) ← literalChar? (ascii '\'') b bs
      if bs.drop more = [ascii '\''] then
        match shown denoted with
        | [c] => some c.toNat
        | _ => none
      else none
    else none
  | _ => none

end ByteString

end MipsAssembler
