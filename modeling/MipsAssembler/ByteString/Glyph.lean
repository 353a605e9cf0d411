import MipsAssembler.ByteString.Basic

/-!
# Byte strings as characters

A byte string is read from left to right as UTF-8. Where the bytes form a character it is taken
whole; any other byte stands alone as a stray byte. The reading loses nothing: the bytes of the
glyphs, put together, are the string again.

* `glyphs` is the reading, `ofGlyphs` puts the bytes back together.
* `Glyph.shown` is the character a glyph stands for, U+FFFD for a stray byte.
-/

namespace MipsAssembler

/-- One step of reading a byte string: a character, or a byte that belongs to none. -/
inductive Glyph where
  | char (c : Char)
  | stray (b : UInt8)
  deriving DecidableEq, Repr

namespace Glyph

/-- The bytes a glyph was read from. -/
def bytes : Glyph → ByteString
  | char c => String.utf8EncodeChar c
  | stray b => [b]

/-- The character that takes the place of a stray byte. -/
def replacement : Char := Char.ofNat 0xFFFD

/-- The character a glyph stands for. -/
def shown : Glyph → Char
  | char c => c
  | stray _ => replacement

end Glyph

namespace ByteString

/-- The number that `n` continuation bytes at the start of a string write after `high`. -/
def continued : Nat → Nat → ByteString → Option Nat
  | 0, high, _ => some high
  | _ + 1, _, [] => none
  | n + 1, high, b :: bs =>
    if 0x80 ≤ b ∧ b < 0xC0 then continued n (high * 64 + (b.toNat - 0x80)) bs else none

/-- The character with code point `v`, unless a shorter sequence writes it (`v < least`) or there is
no such character. -/
def scalar (least v : Nat) : Option Char :=
  if least ≤ v ∧ v.isValidChar then some (Char.ofNat v) else none

/-- The character that starts with the byte `b` before `rest`, and how many bytes of `rest` belong
to it. -/
def leadingChar (b : UInt8) (rest : ByteString) : Option (Char × Nat) :=
  let n := b.toNat
  let wide (lead more least : Nat) : Option (Char × Nat) :=
    ((continued more (n - lead) rest).bind (scalar least)).map (·, more)
  if n < 0x80 then some (Char.ofNat n, 0)
  else if n < 0xC0 then none
  else if n < 0xE0 then wide 0xC0 1 0x80
  else if n < 0xF0 then wide 0xE0 2 0x800
  else if n < 0xF8 then wide 0xF0 3 0x10000
  else none

/-- The glyphs of a string whose first `skip` bytes belong to a glyph already read. -/
def glyphsFrom : Nat → ByteString → List Glyph
  | _, [] => []
  | skip + 1, _ :: bs => glyphsFrom skip bs
  | 0, b :: bs =>
    match leadingChar b bs with
    | some (c, more) => .char c :: glyphsFrom more bs
    | none => .stray b :: glyphsFrom 0 bs

/-- The glyphs of a byte string. -/
def glyphs (s : ByteString) : List Glyph := glyphsFrom 0 s

/-- The byte string that a list of glyphs was read from. -/
def ofGlyphs (gs : List Glyph) : ByteString := gs.flatMap Glyph.bytes

/-- The UTF-8 form of a list of characters. -/
def ofChars (cs : List Char) : ByteString := cs.flatMap String.utf8EncodeChar

/-- The characters that a byte string shows. -/
def shown (s : ByteString) : List Char := (glyphs s).map Glyph.shown

end ByteString

end MipsAssembler
