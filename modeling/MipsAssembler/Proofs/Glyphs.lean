import Mathlib.Data.List.TakeWhile
import MipsAssembler.ByteString.Blank

/-!
# Reading UTF-8

A character is read where its UTF-8 form stands (`leadingChar_of_utf8EncodeChar`) and nowhere else
(`utf8EncodeChar_of_leadingChar`), so that the glyphs of a byte string make up the string again
(`ofGlyphs_glyphs`). A byte below 0x80 belongs to no other
character than its own (`toNat_eq_of_mem_utf8EncodeChar`). That is why what is visible in ASCII is
never taken for a part of a blank: `trim` stops before such bytes at the ends of a text
(`trim_of_visible`) and keeps them inside (`mem_trim`). For the same reason a text may be cut before
a byte below 0x80: the glyphs of the parts are those of the whole (`glyphs_append`), and margins at
the end are taken away by `trim` (`trim_append`).
-/

namespace MipsAssembler

namespace ByteString

/-! ## One character -/

theorem toNat_ofNat_char {v : Nat} (h : v.isValidChar) : (Char.ofNat v).toNat = v := by
  rw [Char.ofNat, dif_pos h]
  rfl

theorem toNat_ofNat_byte {n : Nat} (h : n < 256) : (UInt8.ofNat n).toNat = n := by
  rw [UInt8.toNat_ofNat', Nat.mod_eq_of_lt h]

/-- A continuation byte carries six bits. -/
theorem continued_succ {n high v : Nat} {s : ByteString} :
    continued (n + 1) high s = some v ↔
      ∃ x bs, x < 64 ∧ s = UInt8.ofNat (x + 0x80) :: bs ∧ continued n (high * 64 + x) bs = some v := by
  constructor
  · intro h
    cases s with
    | nil => cases h
    | cons b bs =>
      rw [continued] at h
      split at h
      · rename_i hb
        obtain ⟨hlow, hhigh⟩ := hb
        have hlow : 0x80 ≤ b.toNat := UInt8.le_iff_toNat_le.1 hlow
        have hhigh : b.toNat < 0xC0 := UInt8.lt_iff_toNat_lt.1 hhigh
        refine ⟨b.toNat - 0x80, bs, by omega, ?_, h⟩
        rw [Nat.sub_add_cancel hlow, UInt8.ofNat_toNat]
      · cases h
  · rintro ⟨x, bs, hx, rfl, h⟩
    have hbyte : (UInt8.ofNat (x + 0x80)).toNat = x + 0x80 := toNat_ofNat_byte (by omega)
    rw [continued, if_pos, hbyte, Nat.add_sub_cancel]
    · exact h
    · rw [UInt8.le_iff_toNat_le, UInt8.lt_iff_toNat_lt, hbyte]
      exact ⟨Nat.le_add_left .., show x + 0x80 < 0xC0 by omega⟩

/-- The UTF-8 form of a character, by its length. -/
theorem utf8EncodeChar_cases (c : Char) :
    (c.toNat < 0x80 ∧ String.utf8EncodeChar c = [UInt8.ofNat c.toNat]) ∨
    (∃ y x, y < 32 ∧ x < 64 ∧ 0x80 ≤ c.toNat ∧ c.toNat = y * 64 + x ∧
      String.utf8EncodeChar c = [UInt8.ofNat (y + 0xC0), UInt8.ofNat (x + 0x80)]) ∨
    (∃ y x₁ x₂, y < 16 ∧ x₁ < 64 ∧ x₂ < 64 ∧ 0x800 ≤ c.toNat ∧
      c.toNat = (y * 64 + x₁) * 64 + x₂ ∧ String.utf8EncodeChar c =
        [UInt8.ofNat (y + 0xE0), UInt8.ofNat (x₁ + 0x80), UInt8.ofNat (x₂ + 0x80)]) ∨
    ∃ y x₁ x₂ x₃, y < 8 ∧ x₁ < 64 ∧ x₂ < 64 ∧ x₃ < 64 ∧ 0x10000 ≤ c.toNat ∧
      c.toNat = ((y * 64 + x₁) * 64 + x₂) * 64 + x₃ ∧ String.utf8EncodeChar c =
        [UInt8.ofNat (y + 0xF0), UInt8.ofNat (x₁ + 0x80), UInt8.ofNat (x₂ + 0x80),
          UInt8.ofNat (x₃ + 0x80)] := by
  have hvalid : c.toNat < 0x110000 := by
    have := c.valid
    simp only [UInt32.isValidChar, Nat.isValidChar] at this
    change c.toNat < 0xD800 ∨ 0xDFFF < c.toNat ∧ c.toNat < 0x110000 at this
    omega
  have hencode : String.utf8EncodeChar c =
      if c.toNat ≤ 0x7F then [UInt8.ofNat c.toNat]
      else if c.toNat ≤ 0x7FF then
        [UInt8.ofNat (c.toNat / 64 % 32 + 0xC0), UInt8.ofNat (c.toNat % 64 + 0x80)]
      else if c.toNat ≤ 0xFFFF then
        [UInt8.ofNat (c.toNat / 4096 % 16 + 0xE0), UInt8.ofNat (c.toNat / 64 % 64 + 0x80),
          UInt8.ofNat (c.toNat % 64 + 0x80)]
      else
        [UInt8.ofNat (c.toNat / 262144 % 8 + 0xF0), UInt8.ofNat (c.toNat / 4096 % 64 + 0x80),
          UInt8.ofNat (c.toNat / 64 % 64 + 0x80), UInt8.ofNat (c.toNat % 64 + 0x80)] := rfl
  by_cases hone : c.toNat ≤ 0x7F
  · rw [if_pos hone] at hencode
    exact .inl ⟨by omega, hencode⟩
  rw [if_neg hone] at hencode
  by_cases htwo : c.toNat ≤ 0x7FF
  · rw [if_pos htwo] at hencode
    exact .inr (.inl ⟨_, _, by omega, by omega, by omega, by omega, hencode⟩)
  rw [if_neg htwo] at hencode
  by_cases hthree : c.toNat ≤ 0xFFFF
  · rw [if_pos hthree] at hencode
    exact .inr (.inr (.inl ⟨_, _, _, by omega, by omega, by omega, by omega, by omega, hencode⟩))
  rw [if_neg hthree] at hencode
  exact .inr (.inr (.inr ⟨_, _, _, _, by omega, by omega, by omega, by omega, by omega, by omega,
    hencode⟩))

theorem utf8EncodeChar_ascii {c : Char} (h : c.toNat < 0x80) :
    String.utf8EncodeChar c = [UInt8.ofNat c.toNat] := by
  rcases utf8EncodeChar_cases c with
    ⟨-, henc⟩ | ⟨_, _, _, _, _, -⟩ | ⟨_, _, _, _, _, _, _, -⟩ | ⟨_, _, _, _, _, _, _, _, _, -⟩
  · exact henc
  all_goals omega

theorem scalar_eq_some {least v : Nat} {c : Char} :
    scalar least v = some c ↔ least ≤ v ∧ c.toNat = v := by
  rw [scalar]
  constructor
  · intro h
    split at h
    · rename_i hv
      obtain rfl := Option.some.inj h
      exact ⟨hv.1, toNat_ofNat_char hv.2⟩
    · cases h
  · rintro ⟨hleast, rfl⟩
    rw [if_pos ⟨hleast, c.valid⟩, Char.ofNat_toNat]

/-- A character of several bytes: what follows the first of them writes its number, and no shorter
sequence would do. -/
theorem wide_eq_some {n high least k : Nat} {rest : ByteString} {c : Char} :
    ((continued n high rest).bind (scalar least)).map (·, n) = some (c, k) ↔
      k = n ∧ least ≤ c.toNat ∧ continued n high rest = some c.toNat := by
  simp only [Option.map_eq_some_iff, Option.bind_eq_some_iff, scalar_eq_some, Prod.mk.injEq]
  constructor
  · rintro ⟨_, ⟨v, hcontinued, hleast, rfl⟩, rfl, rfl⟩
    exact ⟨rfl, hleast, hcontinued⟩
  · rintro ⟨rfl, hleast, hcontinued⟩
    exact ⟨c, ⟨c.toNat, hcontinued, hleast, rfl⟩, rfl, rfl⟩

/-- What is read as a character is its UTF-8 form: of the four lengths only that of the first byte
agrees with the number. -/
theorem utf8EncodeChar_of_leadingChar {b : UInt8} {rest : ByteString} {c : Char} {more : Nat}
    (h : leadingChar b rest = some (c, more)) :
    ∃ tail bs, String.utf8EncodeChar c = b :: tail ∧ tail.length = more ∧ rest = tail ++ bs := by
  have hbyte := b.toNat_lt
  have hb : UInt8.ofNat b.toNat = b := UInt8.ofNat_toNat
  simp only [leadingChar] at h
  split at h
  · obtain ⟨rfl, rfl⟩ := Prod.mk.inj (Option.some.inj h)
    have hc : (Char.ofNat b.toNat).toNat = b.toNat := toNat_ofNat_char (.inl (by omega))
    refine ⟨[], rest, ?_, rfl, rfl⟩
    rw [utf8EncodeChar_ascii (by omega), hc, hb]
  split at h
  · cases h
  split at h
  · obtain ⟨rfl, _, hcontinued⟩ := wide_eq_some.1 h
    obtain ⟨x, bs, _, rfl, hlast⟩ := continued_succ.1 hcontinued
    have hv := Option.some.inj hlast
    rcases utf8EncodeChar_cases c with
      ⟨_, -⟩ | ⟨y', x', _, _, _, _, henc⟩ | ⟨_, _, _, _, _, _, _, -⟩ | ⟨_, _, _, _, _, _, _, _, _, -⟩
    · omega
    · obtain ⟨hy, rfl⟩ : y' + 0xC0 = b.toNat ∧ x' = x := by omega
      rw [hy, hb] at henc
      exact ⟨_, bs, henc, rfl, rfl⟩
    all_goals omega
  split at h
  · obtain ⟨rfl, _, hcontinued⟩ := wide_eq_some.1 h
    obtain ⟨x₁, bs₁, _, rfl, hsecond⟩ := continued_succ.1 hcontinued
    obtain ⟨x₂, bs, _, rfl, hlast⟩ := continued_succ.1 hsecond
    have hv := Option.some.inj hlast
    rcases utf8EncodeChar_cases c with
      ⟨_, -⟩ | ⟨_, _, _, _, _, _, -⟩ | ⟨y', x₁', x₂', _, _, _, _, _, henc⟩ |
      ⟨_, _, _, _, _, _, _, _, _, -⟩
    · omega
    · omega
    · obtain ⟨hy, rfl, rfl⟩ : y' + 0xE0 = b.toNat ∧ x₁' = x₁ ∧ x₂' = x₂ := by omega
      rw [hy, hb] at henc
      exact ⟨_, bs, henc, rfl, rfl⟩
    · omega
  split at h
  · obtain ⟨rfl, _, hcontinued⟩ := wide_eq_some.1 h
    obtain ⟨x₁, bs₁, _, rfl, hsecond⟩ := continued_succ.1 hcontinued
    obtain ⟨x₂, bs₂, _, rfl, hthird⟩ := continued_succ.1 hsecond
    obtain ⟨x₃, bs, _, rfl, hlast⟩ := continued_succ.1 hthird
    have hv := Option.some.inj hlast
    rcases utf8EncodeChar_cases c with
      ⟨_, -⟩ | ⟨_, _, _, _, _, _, -⟩ | ⟨_, _, _, _, _, _, _, _, -⟩ |
      ⟨y', x₁', x₂', x₃', _, _, _, _, _, _, henc⟩
    · omega
    · omega
    · omega
    · obtain ⟨hy, rfl, rfl, rfl⟩ :
          y' + 0xF0 = b.toNat ∧ x₁' = x₁ ∧ x₂' = x₂ ∧ x₃' = x₃ := by omega
      rw [hy, hb] at henc
      exact ⟨_, bs, henc, rfl, rfl⟩
  · cases h

/-- The UTF-8 form of a character is read as the character, whatever follows. -/
theorem leadingChar_of_utf8EncodeChar {b : UInt8} {tail : ByteString} {c : Char}
    (h : String.utf8EncodeChar c = b :: tail) (bs : ByteString) :
    leadingChar b (tail ++ bs) = some (c, tail.length) := by
  simp only [leadingChar]
  rcases utf8EncodeChar_cases c with
    ⟨hone, henc⟩ | ⟨y, x, hy, hx, hleast, hc, henc⟩ |
    ⟨y, x₁, x₂, hy, hx₁, hx₂, hleast, hc, henc⟩ |
    ⟨y, x₁, x₂, x₃, hy, hx₁, hx₂, hx₃, hleast, hc, henc⟩
  · obtain ⟨rfl, rfl⟩ := List.cons.inj (h.symm.trans henc)
    rw [toNat_ofNat_byte (by omega), if_pos hone, Char.ofNat_toNat]
    rfl
  · obtain ⟨rfl, rfl⟩ := List.cons.inj (h.symm.trans henc)
    have hb : (UInt8.ofNat (y + 0xC0)).toNat = y + 0xC0 := toNat_ofNat_byte (by omega)
    rw [hb, if_neg (by omega), if_neg (by omega), if_pos (by omega), Nat.add_sub_cancel]
    refine wide_eq_some.2 ⟨rfl, hleast, continued_succ.2 ⟨x, bs, hx, rfl, ?_⟩⟩
    rw [continued, hc]
  · obtain ⟨rfl, rfl⟩ := List.cons.inj (h.symm.trans henc)
    have hb : (UInt8.ofNat (y + 0xE0)).toNat = y + 0xE0 := toNat_ofNat_byte (by omega)
    rw [hb, if_neg (by omega), if_neg (by omega), if_neg (by omega), if_pos (by omega),
      Nat.add_sub_cancel]
    refine wide_eq_some.2 ⟨rfl, hleast, continued_succ.2 ⟨x₁, _, hx₁, rfl, ?_⟩⟩
    refine continued_succ.2 ⟨x₂, bs, hx₂, rfl, ?_⟩
    rw [continued, hc]
  · obtain ⟨rfl, rfl⟩ := List.cons.inj (h.symm.trans henc)
    have hb : (UInt8.ofNat (y + 0xF0)).toNat = y + 0xF0 := toNat_ofNat_byte (by omega)
    rw [hb, if_neg (by omega), if_neg (by omega), if_neg (by omega), if_neg (by omega),
      if_pos (by omega), Nat.add_sub_cancel]
    refine wide_eq_some.2 ⟨rfl, hleast, continued_succ.2 ⟨x₁, _, hx₁, rfl, ?_⟩⟩
    refine continued_succ.2 ⟨x₂, _, hx₂, rfl, continued_succ.2 ⟨x₃, bs, hx₃, rfl, ?_⟩⟩
    rw [continued, hc]

/-- A byte below 0x80 belongs to its own character only. -/
theorem toNat_eq_of_mem_utf8EncodeChar {b : UInt8} {c : Char} (hb : b ∈ String.utf8EncodeChar c)
    (hlt : b.toNat < 0x80) : c.toNat = b.toNat := by
  have hbyte : ∀ n, 0x80 ≤ n → n < 256 → b ≠ UInt8.ofNat n := by
    rintro n hlow hhigh rfl
    rw [toNat_ofNat_byte hhigh] at hlt
    omega
  rcases utf8EncodeChar_cases c with
    ⟨hone, henc⟩ | ⟨y, x, hy, hx, -, -, henc⟩ | ⟨y, x₁, x₂, hy, hx₁, hx₂, -, -, henc⟩ |
    ⟨y, x₁, x₂, x₃, hy, hx₁, hx₂, hx₃, -, -, henc⟩
  · rw [henc, List.mem_singleton] at hb
    rw [hb, toNat_ofNat_byte (by omega)]
  all_goals
    simp only [henc, List.mem_cons, List.not_mem_nil, or_false] at hb
  · rcases hb with hb | hb
    · exact absurd hb (hbyte _ (by omega) (by omega))
    · exact absurd hb (hbyte _ (by omega) (by omega))
  · rcases hb with hb | hb | hb
    · exact absurd hb (hbyte _ (by omega) (by omega))
    · exact absurd hb (hbyte _ (by omega) (by omega))
    · exact absurd hb (hbyte _ (by omega) (by omega))
  · rcases hb with hb | hb | hb | hb
    · exact absurd hb (hbyte _ (by omega) (by omega))
    · exact absurd hb (hbyte _ (by omega) (by omega))
    · exact absurd hb (hbyte _ (by omega) (by omega))
    · exact absurd hb (hbyte _ (by omega) (by omega))

/-- The bytes of a character are not those of another one that is ASCII. -/
theorem ne_ascii_of_mem_utf8EncodeChar {a c : Char} (ha : a.toNat < 0x80) (hne : c ≠ a) {b : UInt8}
    (hb : b ∈ String.utf8EncodeChar c) : b ≠ ascii a := by
  rintro rfl
  have hascii : (ascii a).toNat = a.toNat := toNat_ofNat_byte (by omega)
  have hc := toNat_eq_of_mem_utf8EncodeChar hb (by omega)
  exact hne (Char.toNat_inj.1 (hc.trans hascii))

/-! ## Strings -/

theorem ofGlyphs_glyphsFrom (skip : Nat) (s : ByteString) :
    ofGlyphs (glyphsFrom skip s) = s.drop skip := by
  fun_induction glyphsFrom skip s with
  | case1 skip => simp [ofGlyphs]
  | case2 skip b bs ih => rw [ih, List.drop_succ_cons]
  | case3 b bs c more hlead ih =>
    obtain ⟨tail, rest, henc, rfl, rfl⟩ := utf8EncodeChar_of_leadingChar hlead
    rw [ofGlyphs, List.flatMap_cons, Glyph.bytes, henc, ← ofGlyphs, ih]
    simp
  | case4 b bs hlead ih =>
    rw [ofGlyphs, List.flatMap_cons, Glyph.bytes, ← ofGlyphs, ih]
    simp

/-- Reading loses nothing. -/
theorem ofGlyphs_glyphs (s : ByteString) : ofGlyphs (glyphs s) = s := ofGlyphs_glyphsFrom 0 s

/-- Where no continuation byte follows, a character is complete or stays incomplete. -/
theorem continued_append {t : ByteString} (ht : ∀ b ∈ t.head?, b.toNat < 0x80) (n high : Nat)
    (s : ByteString) : continued n high (s ++ t) = continued n high s := by
  induction n generalizing high s with
  | zero => rw [continued, continued]
  | succ n ih =>
    cases s with
    | cons b s =>
      rw [List.cons_append, continued, continued, ih]
    | nil =>
      cases t with
      | nil => rfl
      | cons b t =>
        have hb : b.toNat < 0x80 := ht b rfl
        rw [List.nil_append, continued, continued, if_neg]
        rintro ⟨hlow, -⟩
        exact absurd (UInt8.le_iff_toNat_le.1 hlow) (Nat.not_le.2 hb)

theorem leadingChar_append {t : ByteString} (ht : ∀ b ∈ t.head?, b.toNat < 0x80) (b : UInt8)
    (s : ByteString) : leadingChar b (s ++ t) = leadingChar b s := by
  simp only [leadingChar, continued_append ht]

theorem glyphsFrom_append {t : ByteString} (ht : ∀ b ∈ t.head?, b.toNat < 0x80) {skip : Nat}
    {s : ByteString} (hskip : skip ≤ s.length) :
    glyphsFrom skip (s ++ t) = glyphsFrom skip s ++ glyphs t := by
  fun_induction glyphsFrom skip s with
  | case1 skip =>
    obtain rfl := Nat.le_zero.1 hskip
    rfl
  | case2 skip b bs ih => exact ih (Nat.le_of_succ_le_succ hskip)
  | case3 b bs c more hlead ih =>
    obtain ⟨tail, rest, -, rfl, rfl⟩ := utf8EncodeChar_of_leadingChar hlead
    have hmore : tail.length ≤ (tail ++ rest).length := by simp
    rw [List.cons_append, glyphsFrom, leadingChar_append ht, hlead, List.cons_append, ← ih hmore]
  | case4 b bs hlead ih =>
    rw [List.cons_append, glyphsFrom, leadingChar_append ht, hlead, List.cons_append,
      ← ih (Nat.zero_le _)]

/-- A text that starts with an ASCII character is read apart from what stands before it. -/
theorem glyphs_append {t : ByteString} (ht : ∀ b ∈ t.head?, b.toNat < 0x80) (s : ByteString) :
    glyphs (s ++ t) = glyphs s ++ glyphs t := glyphsFrom_append ht (Nat.zero_le _)

theorem glyphs_cons_ascii {b : UInt8} (hb : b.toNat < 0x80) (s : ByteString) :
    glyphs (b :: s) = .char (Char.ofNat b.toNat) :: glyphs s := by
  have hlead : leadingChar b s = some (Char.ofNat b.toNat, 0) := by
    simp only [leadingChar, if_pos hb]
  rw [glyphs, glyphsFrom, hlead, glyphs]

/-- Is `b` a visible ASCII character? -/
def isVisible (b : UInt8) : Bool := 0x21 ≤ b && b ≤ 0x7E

theorem isBlankGlyph_of_mem_bytes {b : UInt8} {g : Glyph} (hb : b ∈ g.bytes)
    (hvisible : isVisible b = true) : isBlankGlyph g = false := by
  simp only [isVisible, Bool.and_eq_true, decide_eq_true_eq, UInt8.le_iff_toNat_le] at hvisible
  obtain ⟨hlow, hhigh⟩ := hvisible
  change 0x21 ≤ b.toNat at hlow
  change b.toNat ≤ 0x7E at hhigh
  cases g with
  | stray => rfl
  | char c =>
    have hc : c.toNat = b.toNat := toNat_eq_of_mem_utf8EncodeChar hb (by omega)
    simp only [isBlankGlyph, isBlank, hc, Bool.or_eq_false_iff, Bool.and_eq_false_iff,
      decide_eq_false_iff_not, beq_eq_false_iff_ne]
    omega

/-! ## Ends -/

/-- Nothing is taken from the ends of a list whose first and last element stay. -/
theorem dropWhile_ends_eq_self {α : Type} {p : α → Bool} {l : List α}
    (hfirst : ∀ a ∈ l.head?, p a = false) (hlast : ∀ a ∈ l.getLast?, p a = false) :
    ((l.dropWhile p).reverse.dropWhile p).reverse = l := by
  have hself : ∀ l : List α, (∀ a ∈ l.head?, p a = false) → l.dropWhile p = l := by
    intro l hl
    cases l with
    | nil => rfl
    | cons a l => rw [List.dropWhile_cons_of_neg (by simp [hl a rfl])]
  rw [hself l hfirst, hself l.reverse (by simpa using hlast), List.reverse_reverse]

/-- What is taken away at the end may as well not be there. -/
theorem dropWhile_ends_append {α : Type} {p : α → Bool} {t : List α} (ht : ∀ a ∈ t, p a = true)
    (l : List α) :
    (((l ++ t).dropWhile p).reverse.dropWhile p).reverse =
      ((l.dropWhile p).reverse.dropWhile p).reverse := by
  rw [List.dropWhile_append]
  split
  · rename_i hempty
    rw [List.isEmpty_iff.1 hempty, List.dropWhile_eq_nil_iff.2 ht]
  · rw [List.reverse_append, List.dropWhile_append_of_pos fun a ha => ht a (List.mem_reverse.1 ha)]

/-- What does not satisfy the condition stays. -/
theorem mem_dropWhile {α : Type} {p : α → Bool} {l : List α} {a : α} (ha : a ∈ l)
    (hp : p a = false) : a ∈ l.dropWhile p := by
  rw [← List.takeWhile_append_dropWhile (p := p) (l := l), List.mem_append] at ha
  rcases ha with ha | ha
  · have := List.mem_takeWhile_imp ha
    simp [hp] at this
  · exact ha

variable {s : ByteString}

theorem bytes_ne_nil (g : Glyph) : g.bytes ≠ [] := by
  cases g with
  | char c => exact String.utf8EncodeChar_ne_nil
  | stray b => exact List.cons_ne_nil _ _

/-- Nothing is taken from a text that begins and ends with visible characters. -/
theorem trim_of_visible (hfirst : ∀ b ∈ s.head?, isVisible b = true)
    (hlast : ∀ b ∈ s.getLast?, isVisible b = true) : trim s = s := by
  rw [trim, dropWhile_ends_eq_self, ofGlyphs_glyphs]
  · intro g hg
    obtain ⟨gs, hgs⟩ := List.head?_eq_some_iff.1 hg
    obtain ⟨b, bs, hb⟩ := List.exists_cons_of_ne_nil (bytes_ne_nil g)
    have hs : s = b :: bs ++ ofGlyphs gs := by
      rw [← ofGlyphs_glyphs s, hgs, ofGlyphs, List.flatMap_cons, hb, ofGlyphs]
    exact isBlankGlyph_of_mem_bytes (b := b) (by simp [hb]) (hfirst b (by simp [hs]))
  · intro g hg
    obtain ⟨gs, hgs⟩ := List.getLast?_eq_some_iff.1 hg
    have hs : s = ofGlyphs gs ++ g.bytes := by
      rw [← ofGlyphs_glyphs s, hgs, ofGlyphs, List.flatMap_append, List.flatMap_singleton, ofGlyphs]
    refine isBlankGlyph_of_mem_bytes (List.getLast_mem (bytes_ne_nil g)) (hlast _ ?_)
    rw [hs, List.getLast?_append, List.getLast?_eq_some_getLast (bytes_ne_nil g)]
    rfl

/-- A visible character is never taken away. -/
theorem mem_trim {b : UInt8} (hb : b ∈ s) (hvisible : isVisible b = true) : b ∈ trim s := by
  rw [← ofGlyphs_glyphs s, ofGlyphs, List.mem_flatMap] at hb
  obtain ⟨g, hg, hb⟩ := hb
  have hblank := isBlankGlyph_of_mem_bytes hb hvisible
  refine List.mem_flatMap.2 ⟨g, List.mem_reverse.2 ?_, hb⟩
  exact mem_dropWhile (List.mem_reverse.2 (mem_dropWhile hg hblank)) hblank

theorem isMargin_cases {b : UInt8} (h : isMargin b = true) :
    b = ascii ' ' ∨ b = ascii '\t' ∨ b = ascii '\r' ∨ b = ascii '\n' := by
  simpa only [isMargin, isGap, Bool.or_eq_true, beq_iff_eq, or_assoc] using h

theorem ascii_of_isMargin {b : UInt8} (h : isMargin b = true) :
    b.toNat < 0x80 ∧ isBlank (Char.ofNat b.toNat) = true := by
  rcases isMargin_cases h with rfl | rfl | rfl | rfl <;> decide

/-- Spaces, tabs and ends of lines after a text are taken away with its own blanks. -/
theorem trim_append {t : ByteString} (ht : ∀ b ∈ t, isMargin b = true) (s : ByteString) :
    trim (s ++ t) = trim s := by
  have hblank : ∀ g ∈ glyphs t, isBlankGlyph g = true := by
    induction t with
    | nil => simp [glyphs, glyphsFrom]
    | cons b t ih =>
      rw [List.forall_mem_cons] at ht
      obtain ⟨hascii, hb⟩ := ascii_of_isMargin ht.1
      rw [glyphs_cons_ascii hascii, List.forall_mem_cons]
      exact ⟨hb, ih ht.2⟩
  rw [trim, trim, glyphs_append fun b hb => (ascii_of_isMargin (ht b (List.mem_of_mem_head? hb))).1,
    dropWhile_ends_append hblank]

theorem ofGlyphs_append (gs hs : List Glyph) : ofGlyphs (gs ++ hs) = ofGlyphs gs ++ ofGlyphs hs :=
  List.flatMap_append

/-- Only the start of a text is taken away. -/
theorem trimStart_suffix (s : ByteString) : trimStart s <:+ s := by
  refine ⟨ofGlyphs ((glyphs s).takeWhile isBlankGlyph), ?_⟩
  rw [trimStart, ← ofGlyphs_append, List.takeWhile_append_dropWhile, ofGlyphs_glyphs]

/-- The blanks at the start of a text end before an ASCII character that is none. -/
theorem trimStart_append_cons {b : UInt8} (hascii : b.toNat < 0x80)
    (hb : isBlank (Char.ofNat b.toNat) = false) (s t : ByteString) :
    trimStart (s ++ b :: t) = trimStart s ++ b :: t := by
  have hstop : (glyphs (b :: t)).dropWhile isBlankGlyph = glyphs (b :: t) := by
    rw [glyphs_cons_ascii hascii, List.dropWhile_cons_of_neg (by simp [isBlankGlyph, hb])]
  rw [trimStart, trimStart, glyphs_append (by simpa using hascii), List.dropWhile_append, hstop]
  split
  · rename_i hempty
    rw [List.isEmpty_iff.1 hempty, ofGlyphs_glyphs]
    rfl
  · rw [ofGlyphs_append, ofGlyphs_glyphs]

end ByteString

end MipsAssembler
