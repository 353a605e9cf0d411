import MipsAssembler.ByteString.Glyph

/-!
# Blanks

The characters with the Unicode property White_Space, and `trim`, which takes them away at the two
ends of a byte string. A stray byte is no blank.
-/

namespace MipsAssembler

namespace ByteString

/-- Is `c` white space? -/
def isBlank (c : Char) : Bool :=
  let n := c.toNat
  (0x09 ≤ n && n ≤ 0x0D) || n == 0x20 || n == 0x85 || n == 0xA0 || n == 0x1680 ||
    (0x2000 ≤ n && n ≤ 0x200A) || n == 0x2028 || n == 0x2029 || n == 0x202F || n == 0x205F ||
    n == 0x3000

/-- Is the glyph a blank? -/
def isBlankGlyph : Glyph → Bool
  | .char c => isBlank c
  | .stray _ => false

/-- `s` without the blanks it starts with. -/
def trimStart (s : ByteString) : ByteString := ofGlyphs ((glyphs s).dropWhile isBlankGlyph)

/-- `s` without the blanks at its two ends. -/
def trim (s : ByteString) : ByteString :=
  ofGlyphs ((((glyphs s).dropWhile isBlankGlyph).reverse.dropWhile isBlankGlyph).reverse)

end ByteString

end MipsAssembler
