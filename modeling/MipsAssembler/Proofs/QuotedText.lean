import MipsAssembler.Proofs.Numerals

/-!
# Quoted text reads back

Writing goes glyph by glyph, and so does reading back: what is written for a glyph is read as one
character of the text, which denotes the bytes of the glyph, whatever follows
(`literalChar?_quoteGlyph`). Hence any byte string is read back from between the marks
(`unquote?_quote`), although reading is more liberal than writing.

The scanners of a line have a simpler notion of quoted text: a backslash hides the byte after it, and
nothing else matters but the closing mark. `IsBody` is this notion. What is written between the marks
is such a text (`isBody_quoteGlyph`), so that a line that ends with it is taken as it is, although
comment marks, colons and commas may stand in it (`isBare_quote`).
-/

namespace MipsAssembler

namespace ByteString

/-! ## Digits of escapes -/

theorem length_digitsFrom_le {base fuel width n : Nat} (hwidth : 0 < width)
    (h : n < base ^ width) : (digitsFrom base fuel n).length ≤ width := by
  induction fuel generalizing n width with
  | zero => exact Nat.zero_le _
  | succ fuel ih =>
    rw [digitsFrom]
    split
    · exact hwidth
    · rename_i hle
      obtain ⟨width, rfl⟩ := Nat.exists_eq_add_one.2 hwidth
      have hdiv : n / base < base ^ width := Nat.div_lt_of_lt_mul (by rwa [pow_succ, mul_comm] at h)
      have hpos : 0 < width := by
        refine Nat.pos_of_ne_zero ?_
        rintro rfl
        rw [zero_add, pow_one] at h
        exact hle h
      rw [List.length_append, List.length_singleton]
      exact Nat.succ_le_succ (ih hpos hdiv)

theorem length_lowerHex {width n : Nat} (hwidth : 0 < width) (h : n < 16 ^ width) :
    (lowerHex width n).length = width := by
  have hlength : (digits 16 n).length ≤ width := length_digitsFrom_le hwidth h
  rw [lowerHex, List.length_map, padded, List.length_append, List.length_replicate]
  omega

theorem digitOf?_lowerDigitByte : ∀ d < 16, digitOf? 16 (lowerDigitByte d) = some d := by decide

theorem foldlM_lowerDigitByte {ds : List Nat} (hds : ∀ d ∈ ds, d < 16) (v : Nat) :
    (ds.map lowerDigitByte).foldlM (fun v b => (digitOf? 16 b).map (v * 16 + ·)) v =
      some (valueFrom 16 v ds) := by
  induction ds generalizing v with
  | nil => rfl
  | cons d ds ih =>
    rw [List.map_cons, List.foldlM_cons, digitOf?_lowerDigitByte d (hds d (by simp))]
    exact ih (fun d' hd' => hds d' (by simp [hd'])) (v * 16 + d)

/-- Digits of a fixed number are read back, whatever follows. -/
theorem fixedDigits?_lowerHex {width n : Nat} (hwidth : 0 < width) (h : n < 16 ^ width)
    (rest : ByteString) : fixedDigits? 16 width (lowerHex width n ++ rest) = some n := by
  have hlength := length_lowerHex hwidth h
  have htake : (lowerHex width n ++ rest).take width = lowerHex width n := by
    rw [List.take_append_of_le_length hlength.ge, List.take_of_length_le hlength.le]
  rw [fixedDigits?, if_pos (by rw [List.length_append]; omega), htake, lowerHex,
    foldlM_lowerDigitByte fun d hd => lt_of_mem_padded hd, valueFrom_padded,
    value_digits (by decide)]

/-! ## One glyph -/

variable {c : Char}

theorem escape?_byte {n : Nat} (h : n < 256) (rest : ByteString) :
    escape? (ascii '"') (ascii 'x' :: lowerHex 2 n ++ rest) = some ([UInt8.ofNat n], 3) := by
  have hdigits := fixedDigits?_lowerHex (show 0 < 2 by decide) h rest
  rw [List.cons_append, escape?, if_pos rfl, hdigits]
  rfl

theorem codePoint?_toNat (c : Char) : codePoint? c.toNat = some (String.utf8EncodeChar c) := by
  rw [codePoint?, scalar_eq_some.2 ⟨Nat.zero_le _, rfl⟩]
  rfl

theorem escape?_short (rest : ByteString) : ∀ e ∈ shortEscapes,
    escape? (ascii '"') (ascii e.2 :: rest) = some ([UInt8.ofNat e.1], 1) := by
  intro e he
  simp only [shortEscapes, List.mem_cons, List.not_mem_nil, or_false] at he
  rcases he with rfl | rfl | rfl | rfl | rfl | rfl | rfl <;> rfl

/-- The bytes of a character that is written as it is are neither marks nor ends of lines. -/
theorem ne_marks_of_isPrintable (hprintable : isPrintable c = true) (hmarks : ¬(c = '"' ∨ c = '\\'))
    {b : UInt8} (hb : b ∈ String.utf8EncodeChar c) :
    b ≠ ascii '"' ∧ b ≠ ascii '\\' ∧ b ≠ ascii '\n' := by
  refine ⟨ne_ascii_of_mem_utf8EncodeChar (by decide) (fun hc => hmarks (.inl hc)) hb,
    ne_ascii_of_mem_utf8EncodeChar (by decide) (fun hc => hmarks (.inr hc)) hb,
    ne_ascii_of_mem_utf8EncodeChar (by decide) ?_ hb⟩
  rintro rfl
  cases hprintable

/-- What is written for a character is read as the character. -/
theorem literalChar?_quoteChar (c : Char) : ∃ b bs, quoteChar c = b :: bs ∧ b ≠ ascii '"' ∧
    ∀ rest, literalChar? (ascii '"') b (bs ++ rest) =
      some (String.utf8EncodeChar c, bs.length) := by
  unfold quoteChar
  split
  · rename_i hc
    rcases hc with rfl | rfl
    · exact ⟨ascii '\\', [ascii '"'], rfl, by decide, fun rest => rfl⟩
    · exact ⟨ascii '\\', [ascii '\\'], rfl, by decide, fun rest => rfl⟩
  rename_i hmarks
  split
  · rename_i hprintable
    obtain ⟨b, bs, hb⟩ := List.exists_cons_of_ne_nil (@String.utf8EncodeChar_ne_nil c)
    obtain ⟨hquote, hbackslash, hnewline⟩ :=
      ne_marks_of_isPrintable hprintable hmarks (b := b) (by simp [hb])
    refine ⟨b, bs, hb, hquote, fun rest => ?_⟩
    rw [literalChar?, if_neg hnewline, if_neg hbackslash, leadingChar_of_utf8EncodeChar hb]
  split
  · rename_i letter hletter
    obtain ⟨before, after, hsplit, -⟩ := List.lookup_eq_some_iff.1 hletter
    have hmem : (c.toNat, letter) ∈ shortEscapes := by simp [hsplit]
    have hascii : ∀ e ∈ shortEscapes, e.1 < 0x80 := by decide
    refine ⟨ascii '\\', [ascii letter], rfl, by decide, fun rest => ?_⟩
    rw [utf8EncodeChar_ascii (hascii _ hmem)]
    exact escape?_short rest _ hmem
  have hvalid : c.toNat < 0x110000 := by
    rcases c.valid with h | h
    · exact Nat.lt_trans h (by decide)
    · exact h.2
  split
  · rename_i hlt
    refine ⟨ascii '\\', ascii 'x' :: lowerHex 2 c.toNat, rfl, by decide, fun rest => ?_⟩
    rw [utf8EncodeChar_ascii hlt, List.length_cons, length_lowerHex (by decide) (by omega)]
    exact escape?_byte (by omega) rest
  split
  · rename_i hlt
    have hwidth : c.toNat < 16 ^ 4 := hlt
    refine ⟨ascii '\\', ascii 'u' :: lowerHex 4 c.toNat, rfl, by decide, fun rest => ?_⟩
    rw [List.length_cons, length_lowerHex (by decide) hwidth]
    change escape? (ascii '"') (ascii 'u' :: (lowerHex 4 c.toNat ++ rest)) = _
    rw [escape?, if_neg (by decide), if_pos rfl, fixedDigits?_lowerHex (by decide) hwidth]
    simp [codePoint?_toNat]
  · have hwidth : c.toNat < 16 ^ 8 := by omega
    refine ⟨ascii '\\', ascii 'U' :: lowerHex 8 c.toNat, rfl, by decide, fun rest => ?_⟩
    rw [List.length_cons, length_lowerHex (by decide) hwidth]
    change escape? (ascii '"') (ascii 'U' :: (lowerHex 8 c.toNat ++ rest)) = _
    rw [escape?, if_neg (by decide), if_neg (by decide), if_pos rfl,
      fixedDigits?_lowerHex (by decide) hwidth]
    simp [codePoint?_toNat]

/-- What is written for a glyph is read as its bytes. -/
theorem literalChar?_quoteGlyph (g : Glyph) : ∃ b bs, quoteGlyph g = b :: bs ∧ b ≠ ascii '"' ∧
    ∀ rest, literalChar? (ascii '"') b (bs ++ rest) = some (g.bytes, bs.length) := by
  cases g with
  | char c => exact literalChar?_quoteChar c
  | stray b =>
    have hlt := b.toNat_lt
    refine ⟨ascii '\\', ascii 'x' :: lowerHex 2 b.toNat, rfl, by decide, fun rest => ?_⟩
    have hescape := escape?_byte hlt rest
    rw [UInt8.ofNat_toNat] at hescape
    rw [List.length_cons, length_lowerHex (by decide) hlt]
    exact hescape

/-! ## The text between the marks -/

theorem literalBody?_skip (mark : UInt8) (s rest : ByteString) :
    literalBody? mark s.length (s ++ rest) = literalBody? mark 0 rest := by
  induction s with
  | nil => rfl
  | cons b s ih => exact ih

theorem literalBody?_quoteGlyph (gs : List Glyph) (rest : ByteString) :
    literalBody? (ascii '"') 0 (gs.flatMap quoteGlyph ++ ascii '"' :: rest) =
      some (ofGlyphs gs, rest) := by
  induction gs with
  | nil => rfl
  | cons g gs ih =>
    obtain ⟨b, bs, hg, hquote, hread⟩ := literalChar?_quoteGlyph g
    rw [List.flatMap_cons, hg, List.append_assoc, List.cons_append, literalBody?, if_neg hquote,
      hread, Option.bind_eq_bind, Option.bind_some]
    dsimp only
    rw [literalBody?_skip, ih]
    rfl

theorem quote_eq (s : ByteString) :
    quote s = ascii '"' :: ((glyphs s).flatMap quoteGlyph ++ [ascii '"']) := rfl

/-- Any byte string is read back. -/
theorem unquote?_quote (s : ByteString) : unquote? (quote s) = some s := by
  rw [quote_eq, unquote?, if_pos rfl, literalBody?_quoteGlyph, ofGlyphs_glyphs]

/-! ## What the scanners see -/

/-- A text between quotation marks: bytes other than marks, and backslashes with a byte after each. It
holds no end of a line. -/
inductive IsBody : ByteString → Prop
  | nil : IsBody []
  | byte {b : UInt8} {s : ByteString} : b ≠ ascii '"' → b ≠ ascii '\\' → b ≠ ascii '\n' →
      IsBody s → IsBody (b :: s)
  | escape {b : UInt8} {s : ByteString} : b ≠ ascii '\n' → IsBody s →
      IsBody (ascii '\\' :: b :: s)

namespace IsBody

variable {s t : ByteString}

theorem append (hs : IsBody s) (ht : IsBody t) : IsBody (s ++ t) := by
  induction hs with
  | nil => exact ht
  | byte hquote hbackslash hnewline _ ih => exact .byte hquote hbackslash hnewline ih
  | escape hnewline _ ih => exact .escape hnewline ih

theorem of_forall (h : ∀ b ∈ s, b ≠ ascii '"' ∧ b ≠ ascii '\\' ∧ b ≠ ascii '\n') : IsBody s := by
  induction s with
  | nil => exact .nil
  | cons b s ih =>
    obtain ⟨hquote, hbackslash, hnewline⟩ := h b (by simp)
    exact .byte hquote hbackslash hnewline (ih fun b' hb' => h b' (by simp [hb']))

theorem newline_notMem (h : IsBody s) : ascii '\n' ∉ s := by
  induction h with
  | nil => simp
  | byte _ _ hnewline _ ih => simp [hnewline.symm, ih]
  | escape hnewline _ ih =>
    have hne : ascii '\n' ≠ ascii '\\' := by decide
    simp [hnewline.symm, hne, ih]

end IsBody

theorem isBody_lowerHex (width n : Nat) : IsBody (lowerHex width n) := by
  have hdigit : ∀ d < 16, lowerDigitByte d ≠ ascii '"' ∧ lowerDigitByte d ≠ ascii '\\' ∧
      lowerDigitByte d ≠ ascii '\n' := by decide
  refine .of_forall fun b hb => ?_
  obtain ⟨d, hd, rfl⟩ := List.mem_map.1 hb
  exact hdigit d (lt_of_mem_padded hd)

theorem isBody_quoteGlyph (g : Glyph) : IsBody (quoteGlyph g) := by
  cases g with
  | stray b => exact .escape (by decide) (isBody_lowerHex 2 b.toNat)
  | char c =>
    rw [quoteGlyph, quoteChar]
    split
    · rename_i hc
      rcases hc with rfl | rfl
      · exact .escape (by decide) .nil
      · exact .escape (by decide) .nil
    rename_i hmarks
    split
    · rename_i hprintable
      exact .of_forall fun b hb => ne_marks_of_isPrintable hprintable hmarks hb
    split
    · rename_i letter hletter
      obtain ⟨before, after, hsplit, -⟩ := List.lookup_eq_some_iff.1 hletter
      have hmem : (c.toNat, letter) ∈ shortEscapes := by simp [hsplit]
      have hnewline : ∀ e ∈ shortEscapes, ascii e.2 ≠ ascii '\n' := by decide
      exact .escape (hnewline _ hmem) .nil
    split
    · exact .escape (by decide) (isBody_lowerHex 2 c.toNat)
    split
    · exact .escape (by decide) (isBody_lowerHex 4 c.toNat)
    · exact .escape (by decide) (isBody_lowerHex 8 c.toNat)

/-- What is written between the marks is a text between marks for the scanners as well. -/
theorem isBody_flatMap (gs : List Glyph) : IsBody (gs.flatMap quoteGlyph) := by
  induction gs with
  | nil => exact .nil
  | cons g gs ih =>
    rw [List.flatMap_cons]
    exact (isBody_quoteGlyph g).append ih

/-! ## Lines with quoted text -/

variable {s : ByteString}

/-- Between marks nothing starts a comment. -/
theorem IsBody.stripCommentFrom_append (h : IsBody s) (rest : ByteString) :
    stripCommentFrom (.inside (ascii '"')) (s ++ rest) =
      s ++ stripCommentFrom (.inside (ascii '"')) rest := by
  induction h with
  | nil => rfl
  | byte hquote hbackslash _ _ ih =>
    rw [List.cons_append, stripCommentFrom, if_neg (by simp), Quoting.step, if_neg hbackslash,
      if_neg hquote, ih, List.cons_append]
  | escape _ _ ih =>
    rw [List.cons_append, List.cons_append, stripCommentFrom, if_neg (by simp), Quoting.step,
      if_pos rfl, stripCommentFrom, if_neg (by simp), Quoting.step, ih, List.cons_append,
      List.cons_append]

theorem isName_eq_false (h : ascii '"' ∈ s) : isName s = false := by
  have hstart : isNameStart (ascii '"') = false := by decide
  have hdigit : isDigit (ascii '"') = false := by decide
  cases s with
  | nil => rfl
  | cons b s =>
    rw [isName, Bool.and_eq_false_iff]
    rcases List.mem_cons.1 h with rfl | h
    · exact .inl hstart
    · exact .inr (List.all_eq_false.2 ⟨_, h, by simp [hstart, hdigit]⟩)

/-- A line with a quotation mark before its first colon has no labels. -/
theorem splitLabels_append (hcolon : ascii ':' ∉ s) (hquote : ascii '"' ∈ s) (rest : ByteString) :
    splitLabels (s ++ rest) = .ok ([], s ++ rest) := by
  refine splitLabels_eq_ok.2 (.statement fun first after _ hsplit => ?_)
  have hfirst : ascii '"' ∈ first := by
    obtain ⟨more, rfl, -⟩ | ⟨more, rfl, hmore⟩ := List.append_eq_append_iff.1 hsplit
    · exact List.mem_append_left _ hquote
    · cases more with
      | nil => simpa using hquote
      | cons b more =>
        obtain ⟨rfl, -⟩ := List.cons.inj hmore
        simp at hcolon
  exact ⟨isName_eq_false (mem_trim hfirst (by decide)), List.any_eq_true.2 ⟨_, hfirst, by decide⟩⟩

/-- A word and a quoted text after it are a line as it is, whatever the text is. -/
theorem isBare_quote (h : IsWord s) (chars : ByteString) : IsBare (s ++ " " ++ quote chars) := by
  have hbody := isBody_flatMap (glyphs chars)
  have hplain : ∀ b ∈ s ++ " ", isPlainByte b = true := by
    intro b hb
    rcases List.mem_append.1 hb with hb | hb
    · exact h.isPlain.bytes b hb
    · rw [List.mem_singleton.1 hb]
      decide
  have hfirst : ∀ b ∈ (s ++ " " ++ quote chars).head?, isWordByte b = true := by
    obtain ⟨b, s, rfl⟩ := List.exists_cons_of_ne_nil h.ne_nil
    rintro b ⟨⟩
    exact h.bytes _ (by simp)
  have hlast : (s ++ " " ++ quote chars).getLast? = some (ascii '"') := by
    rw [quote_eq, ← List.cons_append, ← List.append_assoc, List.getLast?_concat]
  constructor
  case ne_nil => simp [h.ne_nil]
  case newline =>
    intro hmem
    rcases List.mem_append.1 hmem with hmem | hmem
    · exact (ne_marks_of_isPlainByte (hplain _ hmem)).2.2 rfl
    · rw [quote_eq] at hmem
      have hne : ascii '\n' ≠ ascii '"' := by decide
      simp [hne, hbody.newline_notMem] at hmem
  case strip_eq =>
    refine dropWhile_ends_eq_self (fun b hb => isMargin_of_isWordByte (hfirst b hb)) ?_
    rw [hlast]
    rintro b ⟨⟩
    decide
  case stripComment_eq =>
    rw [stripComment, stripCommentFrom_append hplain, quote_eq, stripCommentFrom,
      if_neg (by decide)]
    change _ ++ ascii '"' :: stripCommentFrom (.inside (ascii '"')) _ = _
    rw [hbody.stripCommentFrom_append]
    rfl
  case trim_eq =>
    refine trim_of_visible (fun b hb => isVisible_of_isWordByte (hfirst b hb)) ?_
    rw [hlast]
    rintro b ⟨⟩
    decide
  case splitLabels_eq =>
    have hsplit : s ++ " " ++ quote chars =
        (s ++ " " ++ [ascii '"']) ++ ((glyphs chars).flatMap quoteGlyph ++ [ascii '"']) := by
      rw [quote_eq]
      simp
    rw [hsplit]
    refine splitLabels_append (fun hmem => ?_) (by simp) _
    rcases List.mem_append.1 hmem with hmem | hmem
    · exact (ne_marks_of_isPlainByte (hplain _ hmem)).2.1 rfl
    · exact absurd (List.mem_singleton.1 hmem) (by decide)

end ByteString

end MipsAssembler
