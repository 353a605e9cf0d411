import MipsAssembler.Proofs.QuotedText

/-!
# What a character literal stands for

`Denotes` says which texts between single quotation marks stand for a character, and for which code:
a character for itself, and the escapes for a control character, for a number of one byte or for a
code point. `character?_quoted` compares this with what is read. Exactly these texts are read, and
the value is the code, but for one form: an escape for a number of one byte is read as a byte first
and as a character then, and a byte of 0x80 or more alone is no character. It is read as U+FFFD,
whatever the number is (`codeRead`).

`readLiteral_character` states this of literals with bounds.
-/

namespace MipsAssembler

namespace ByteString

/-! ## Digits -/

/-- Digits to the given base, most significant first, that write the number `v`. -/
def Writes (base : Nat) (s : ByteString) (v : Nat) : Prop :=
  ∃ ds, s.map (digitOf? base) = ds.map some ∧ valueFrom base 0 ds = v

theorem foldlM_digitOf? {base n v : Nat} {s : ByteString} :
    s.foldlM (fun v b => (digitOf? base b).map (v * base + ·)) n = some v ↔
      ∃ ds, s.map (digitOf? base) = ds.map some ∧ valueFrom base n ds = v := by
  induction s generalizing n with
  | nil =>
    constructor
    · intro h
      exact ⟨[], rfl, Option.some.inj h⟩
    · rintro ⟨ds, hds, rfl⟩
      rw [List.map_nil, eq_comm, List.map_eq_nil_iff] at hds
      rw [hds]
      rfl
  | cons b s ih =>
    rw [List.foldlM_cons]
    constructor
    · intro h
      obtain ⟨next, hnext, h⟩ := Option.bind_eq_some_iff.1 h
      obtain ⟨d, hd, rfl⟩ := Option.map_eq_some_iff.1 hnext
      obtain ⟨ds, hds, hv⟩ := ih.1 h
      exact ⟨d :: ds, by rw [List.map_cons, List.map_cons, hd, hds], hv⟩
    · rintro ⟨ds, hds, hv⟩
      cases ds with
      | nil => cases hds
      | cons d ds =>
        obtain ⟨hd, hds⟩ := List.cons.inj hds
        rw [hd]
        exact ih.2 ⟨ds, hds, hv⟩

/-- As many digits as are asked for are read, whatever follows. -/
theorem fixedDigits?_append {base n v : Nat} {s : ByteString} (hs : s.length = n)
    (rest : ByteString) : fixedDigits? base n (s ++ rest) = some v ↔ Writes base s v := by
  have htake : (s ++ rest).take n = s := by rw [← hs, List.take_left]
  rw [fixedDigits?, if_pos (by rw [List.length_append]; omega), htake, foldlM_digitOf?, Writes]

theorem valueFrom_lt {base n m : Nat} {ds : List Nat} (hds : ∀ d ∈ ds, d < base)
    (hn : n < m) : valueFrom base n ds < m * base ^ ds.length := by
  induction ds generalizing n m with
  | nil => simpa [valueFrom] using hn
  | cons d ds ih =>
    rw [List.forall_mem_cons] at hds
    have hnext : n * base + d < m * base := by
      calc n * base + d < n * base + base := Nat.add_lt_add_left hds.1 _
        _ = (n + 1) * base := (Nat.succ_mul n base).symm
        _ ≤ m * base := Nat.mul_le_mul_right _ hn
    rw [List.length_cons, pow_succ', ← mul_assoc]
    exact ih hds.2 hnext

theorem Writes.lt {base v : Nat} {s : ByteString} (h : Writes base s v) : v < base ^ s.length := by
  obtain ⟨ds, hds, rfl⟩ := h
  have hdigit : ∀ d ∈ ds, d < base := by
    intro d hd
    have hmem : some d ∈ s.map (digitOf? base) := hds ▸ List.mem_map_of_mem hd
    obtain ⟨b, -, hb⟩ := List.mem_map.1 hmem
    simpa using (Option.filter_eq_some_iff.1 hb).2
  have hlength : ds.length = s.length := by simpa using (congrArg List.length hds).symm
  have hlt := valueFrom_lt hdigit Nat.zero_lt_one
  rwa [one_mul, hlength] at hlt

/-! ## What literals denote -/

/-- The text between single quotation marks. -/
def quoted (text : ByteString) : ByteString := ascii '\'' :: (text ++ [ascii '\''])

/-- The letters of the escapes for code points, and how many digits follow each. -/
def pointEscapes : List (Char × Nat) := [('u', 4), ('U', 8)]

/-- What stands for the character with the code `code` between single quotation marks. -/
inductive Denotes : ByteString → Nat → Prop
  /-- A character, for itself. -/
  | char {c : Char} : c ≠ '\'' → c ≠ '\\' → c ≠ '\n' → Denotes (String.utf8EncodeChar c) c.toNat
  /-- A byte that belongs to no character, for U+FFFD. -/
  | stray {b : UInt8} : 0x80 ≤ b.toNat → Denotes [b] 0xFFFD
  /-- A control character with an escape of one letter. -/
  | control {code : Nat} {letter : Char} : (code, letter) ∈ shortEscapes →
      Denotes [ascii '\\', ascii letter] code
  /-- A backslash or the mark itself. -/
  | mark {c : Char} : c = '\\' ∨ c = '\'' → Denotes [ascii '\\', ascii c] c.toNat
  /-- A byte by its number to base eight. -/
  | octal {s : ByteString} {code : Nat} : s.length = 3 → Writes 8 s code → code < 0x100 →
      Denotes (ascii '\\' :: s) code
  /-- A byte by its number to base sixteen. -/
  | byte {s : ByteString} {code : Nat} : s.length = 2 → Writes 16 s code →
      Denotes (ascii '\\' :: ascii 'x' :: s) code
  /-- A code point by its number to base sixteen. -/
  | point {letter : Char} {s : ByteString} {code : Nat} : (letter, s.length) ∈ pointEscapes →
      Writes 16 s code → code.isValidChar → Denotes (ascii '\\' :: ascii letter :: s) code

/-- Is the text an escape for a number of one byte? -/
def isByteEscape : ByteString → Bool
  | b :: c :: _ => b == ascii '\\' && (c == ascii 'x' || (ascii '0' ≤ c && c ≤ ascii '7'))
  | _ => false

/-- The code that is read where `text` denotes `code`. -/
def codeRead (text : ByteString) (code : Nat) : Nat :=
  if isByteEscape text ∧ 0x80 ≤ code then 0xFFFD else code

/-! ## Characters -/

theorem shown_utf8EncodeChar (c : Char) : shown (String.utf8EncodeChar c) = [c] := by
  obtain ⟨b, tail, hb⟩ := List.exists_cons_of_ne_nil (@String.utf8EncodeChar_ne_nil c)
  have hlead := leadingChar_of_utf8EncodeChar hb []
  rw [List.append_nil] at hlead
  have hskip : ∀ s : ByteString, glyphsFrom s.length s = [] := by
    intro s
    induction s with
    | nil => rfl
    | cons b s ih => exact ih
  rw [shown, glyphs, hb, glyphsFrom, hlead]
  simp only [hskip, List.map_cons, List.map_nil, Glyph.shown]

/-- A byte alone shows its character if it is ASCII. -/
theorem shown_byte {n : Nat} (h : n < 0x100) :
    (shown [UInt8.ofNat n]).map Char.toNat = [if 0x80 ≤ n then 0xFFFD else n] := by
  have hall : ∀ n < 0x100,
      (shown [UInt8.ofNat n]).map Char.toNat = [if 0x80 ≤ n then 0xFFFD else n] := by
    decide +kernel
  exact hall n h

/-- A byte of 0x80 or more before the closing mark belongs to no character. -/
theorem leadingChar_eq_none_iff {b : UInt8} :
    leadingChar b [ascii '\''] = none ↔ 0x80 ≤ b.toNat :=
  forall_byte (P := fun b => leadingChar b [ascii '\''] = none ↔ 0x80 ≤ b.toNat)
    (by decide +kernel) b

/-- Digits to base eight are not taken for letters. -/
theorem octalDigit_facts {b : UInt8} (h : (digitOf? 8 b).isSome) :
    b ≠ ascii 'x' ∧ b ≠ ascii 'u' ∧ b ≠ ascii 'U' ∧ ascii '0' ≤ b ∧ b ≤ ascii '7' :=
  forall_byte (P := fun b => (digitOf? 8 b).isSome → b ≠ ascii 'x' ∧ b ≠ ascii 'u' ∧
    b ≠ ascii 'U' ∧ ascii '0' ≤ b ∧ b ≤ ascii '7') (by decide +kernel) b h

theorem codePoint?_eq_some {v : Nat} {bs : ByteString} :
    codePoint? v = some bs ↔ ∃ c : Char, c.toNat = v ∧ bs = String.utf8EncodeChar c := by
  simp only [codePoint?, Option.map_eq_some_iff, scalar_eq_some, Nat.zero_le, true_and,
    eq_comm (a := bs)]

/-! ## Escapes -/

section Escapes

variable {mark : UInt8} {rest : ByteString}

theorem literalChar?_backslash : literalChar? mark (ascii '\\') rest = escape? mark rest := by
  rw [literalChar?, if_neg (by decide), if_pos rfl]

theorem escape?_x : escape? mark (ascii 'x' :: rest) =
    (fixedDigits? 16 2 rest).map fun v => ([UInt8.ofNat v], 3) := by
  rw [escape?, if_pos rfl]

theorem escape?_point {letter : Char} {width : Nat} (h : (letter, width) ∈ pointEscapes) :
    escape? mark (ascii letter :: rest) =
      ((fixedDigits? 16 width rest).bind codePoint?).map (·, width + 1) := by
  simp only [pointEscapes, List.mem_cons, Prod.mk.injEq, List.not_mem_nil, or_false] at h
  rcases h with ⟨rfl, rfl⟩ | ⟨rfl, rfl⟩
  · rw [escape?, if_neg (by decide), if_pos rfl]
  · rw [escape?, if_neg (by decide), if_neg (by decide), if_pos rfl]

theorem escape?_octal {b : UInt8} (h : (digitOf? 8 b).isSome) : escape? mark (b :: rest) =
    ((fixedDigits? 8 3 (b :: rest)).filter (· < 0x100)).map fun v => ([UInt8.ofNat v], 3) := by
  obtain ⟨hx, hu, hU, hlow, hhigh⟩ := octalDigit_facts h
  rw [escape?, if_neg hx, if_neg hu, if_neg hU, if_pos ⟨hlow, hhigh⟩]

end Escapes

/-! ## Reading what is denoted -/

/-- What denotes a character is read up to the closing mark, and shows that character. -/
theorem Denotes.reads {text : ByteString} {code : Nat} (h : Denotes text code) :
    ∃ b bs denoted, text = b :: bs ∧ b ≠ ascii '\'' ∧
      literalChar? (ascii '\'') b (bs ++ [ascii '\'']) = some (denoted, bs.length) ∧
      (shown denoted).map Char.toNat = [codeRead text code] := by
  have hbackslash : ascii '\\' ≠ ascii '\'' := by decide
  cases h with
  | @char c hquote hescape hnewline =>
    obtain ⟨b, bs, hb⟩ := List.exists_cons_of_ne_nil (@String.utf8EncodeChar_ne_nil c)
    have hne : ∀ a : Char, a.toNat < 0x80 → c ≠ a → b ≠ ascii a := by
      intro a ha hca
      exact ne_ascii_of_mem_utf8EncodeChar ha hca (by simp [hb])
    have hbyte : isByteEscape (b :: bs) = false := by
      cases bs with
      | nil => rfl
      | cons => simp [isByteEscape, hne '\\' (by decide) hescape]
    refine ⟨b, bs, String.utf8EncodeChar c, hb, hne '\'' (by decide) hquote, ?_, ?_⟩
    · rw [literalChar?, if_neg (hne '\n' (by decide) hnewline),
        if_neg (hne '\\' (by decide) hescape), leadingChar_of_utf8EncodeChar hb]
    · rw [shown_utf8EncodeChar, hb, codeRead, hbyte]
      rfl
  | @stray b hb =>
    have hne : ∀ a : Char, a.toNat < 0x80 → b ≠ ascii a := by
      rintro a ha rfl
      rw [show (ascii a).toNat = a.toNat from toNat_ofNat_byte (by omega)] at hb
      omega
    refine ⟨b, [], String.utf8EncodeChar Glyph.replacement, rfl, hne '\'' (by decide), ?_, ?_⟩
    · rw [literalChar?, if_neg (hne '\n' (by decide)), if_neg (hne '\\' (by decide)),
        List.nil_append, leadingChar_eq_none_iff.2 hb]
      rfl
    · rw [shown_utf8EncodeChar]
      rfl
  | @control code letter hmem =>
    have hall : ∀ e ∈ shortEscapes, e.1 < 0x80 ∧ isByteEscape [ascii '\\', ascii e.2] = false ∧
        escape? (ascii '\'') [ascii e.2, ascii '\''] = some ([UInt8.ofNat e.1], 1) := by
      decide
    obtain ⟨hlt, hbyte, hread⟩ := hall _ hmem
    refine ⟨_, _, _, rfl, hbackslash, literalChar?_backslash.trans hread, ?_⟩
    rw [shown_byte (by omega), codeRead, hbyte, if_neg (by omega)]
    rfl
  | mark hc =>
    rcases hc with rfl | rfl
    · exact ⟨_, _, _, rfl, hbackslash, literalChar?_backslash, by decide +kernel⟩
    · exact ⟨_, _, _, rfl, hbackslash, literalChar?_backslash, by decide +kernel⟩
  | @octal s code hs hcode hlt =>
    cases s with
    | nil => cases hs
    | cons b s =>
      have hdigit : (digitOf? 8 b).isSome := by
        obtain ⟨_ | ⟨d, ds⟩, hds, -⟩ := hcode
        · cases hds
        · rw [(List.cons.inj hds).1]
          rfl
      obtain ⟨-, -, -, hlow, hhigh⟩ := octalDigit_facts hdigit
      refine ⟨_, _, [UInt8.ofNat code], rfl, hbackslash, ?_, ?_⟩
      · rw [literalChar?_backslash, List.cons_append, escape?_octal hdigit, ← List.cons_append,
          (fixedDigits?_append hs _).2 hcode, Option.filter_some, if_pos (by simpa using hlt), hs]
        rfl
      · rw [shown_byte hlt, codeRead]
        simp [isByteEscape, hlow, hhigh]
  | @byte s code hs hcode =>
    have hlt : code < 0x100 := by
      have := hcode.lt
      rwa [hs] at this
    refine ⟨_, _, [UInt8.ofNat code], rfl, hbackslash, ?_, ?_⟩
    · rw [literalChar?_backslash, List.cons_append, escape?_x, (fixedDigits?_append hs _).2 hcode,
        List.length_cons, hs]
      rfl
    · rw [shown_byte hlt, codeRead]
      simp [isByteEscape]
  | @point letter s code hletter hcode hvalid =>
    have hchar : (Char.ofNat code).toNat = code := toNat_ofNat_char hvalid
    have hbyte : ∀ e ∈ pointEscapes, ∀ s, isByteEscape (ascii '\\' :: ascii e.1 :: s) = false := by
      intro e he s
      simp only [pointEscapes, List.mem_cons, List.not_mem_nil, or_false] at he
      rcases he with rfl | rfl <;> rfl
    refine ⟨_, _, String.utf8EncodeChar (Char.ofNat code), rfl, hbackslash, ?_, ?_⟩
    · rw [literalChar?_backslash, List.cons_append, escape?_point hletter,
        (fixedDigits?_append rfl _).2 hcode, Option.bind_some, codePoint?_eq_some.2 ⟨_, hchar, rfl⟩]
      rfl
    · rw [shown_utf8EncodeChar, List.map_singleton, hchar, codeRead, hbyte _ hletter]
      rfl

/-- An escape for a code point that is read up to the closing mark denotes a character. -/
theorem denotes_of_point {letter : Char} {width : Nat} (hletter : (letter, width) ∈ pointEscapes)
    {s denoted : ByteString}
    (h : ((fixedDigits? 16 width (s ++ [ascii '\''])).bind codePoint?).map (·, width + 1) =
      some (denoted, s.length + 1)) :
    ∃ code, Denotes (ascii '\\' :: ascii letter :: s) code := by
  obtain ⟨bs, hbs, heq⟩ := Option.map_eq_some_iff.1 h
  obtain ⟨v, hv, hpoint⟩ := Option.bind_eq_some_iff.1 hbs
  obtain ⟨c, rfl, -⟩ := codePoint?_eq_some.1 hpoint
  obtain rfl : width = s.length := Nat.succ.inj (Prod.mk.inj heq).2
  exact ⟨_, .point hletter ((fixedDigits?_append rfl _).1 hv) c.valid⟩

/-- An escape that is read up to the closing mark denotes a character. -/
theorem denotes_of_escape? {s denoted : ByteString}
    (h : escape? (ascii '\'') (s ++ [ascii '\'']) = some (denoted, s.length)) :
    ∃ code, Denotes (ascii '\\' :: s) code := by
  cases s with
  | nil => cases h
  | cons b s =>
    rw [List.cons_append, escape?] at h
    split at h
    · rename_i hb
      obtain ⟨v, hv, heq⟩ := Option.map_eq_some_iff.1 h
      have hs : s.length = 2 := (Nat.succ.inj (Prod.mk.inj heq).2).symm
      exact ⟨v, hb ▸ .byte hs ((fixedDigits?_append hs _).1 hv)⟩
    split at h
    · rename_i hb
      exact hb ▸ denotes_of_point (by decide) h
    split at h
    · rename_i hb
      exact hb ▸ denotes_of_point (by decide) h
    split at h
    · obtain ⟨v, hv, heq⟩ := Option.map_eq_some_iff.1 h
      obtain ⟨hv, hlt⟩ := Option.filter_eq_some_iff.1 hv
      have hs : (b :: s).length = 3 := (Prod.mk.inj heq).2.symm
      exact ⟨v, .octal hs ((fixedDigits?_append hs _).1 hv) (by simpa using hlt)⟩
    split at h
    · rename_i hb
      have hs : s = [] := List.length_eq_zero_iff.1
        (Nat.succ.inj (Prod.mk.inj (Option.some.inj h)).2).symm
      rw [hs]
      rcases hb with rfl | rfl
      · exact ⟨_, .mark (.inl rfl)⟩
      · exact ⟨_, .mark (.inr rfl)⟩
    · obtain ⟨⟨code, letter⟩, hfind, heq⟩ := Option.map_eq_some_iff.1 h
      have hs : s = [] := List.length_eq_zero_iff.1 (Nat.succ.inj (Prod.mk.inj heq).2).symm
      have hletter : ascii letter = b := by simpa using List.find?_some hfind
      rw [hs, ← hletter]
      exact ⟨code, .control (List.mem_of_find?_eq_some hfind)⟩

/-- What is read up to the closing mark denotes a character. -/
theorem denotes_of_literalChar? {b : UInt8} {bs denoted : ByteString} (hb : b ≠ ascii '\'')
    (h : literalChar? (ascii '\'') b (bs ++ [ascii '\'']) = some (denoted, bs.length)) :
    ∃ code, Denotes (b :: bs) code := by
  rw [literalChar?] at h
  split at h
  · cases h
  rename_i hnewline
  split at h
  · rename_i hbackslash
    exact hbackslash ▸ denotes_of_escape? h
  rename_i hbackslash
  split at h
  · rename_i c more hlead
    obtain ⟨tail, rest, henc, hlength, hrest⟩ := utf8EncodeChar_of_leadingChar hlead
    have hmore : more = bs.length := (Prod.mk.inj (Option.some.inj h)).2
    obtain rfl : bs = tail := (List.append_inj hrest (by omega)).1
    have hne : ∀ a : Char, a.toNat < 0x80 → b ≠ ascii a → c ≠ a := by
      rintro a ha hba rfl
      rw [utf8EncodeChar_ascii ha] at henc
      exact hba (List.cons.inj henc).1.symm
    rw [← henc]
    exact ⟨_, .char (hne '\'' (by decide) hb) (hne '\\' (by decide) hbackslash)
      (hne '\n' (by decide) hnewline)⟩
  · rename_i hlead
    obtain rfl : bs = [] := List.length_eq_zero_iff.1 (Prod.mk.inj (Option.some.inj h)).2.symm
    exact ⟨_, .stray (leadingChar_eq_none_iff.1 hlead)⟩

/-! ## Literals -/

/-- What denotes a character is read as one. -/
theorem Denotes.character? {text : ByteString} {code : Nat} (h : Denotes text code) :
    ByteString.character? (quoted text) = some (codeRead text code) := by
  obtain ⟨b, bs, denoted, rfl, hb, hread, hshown⟩ := h.reads
  obtain ⟨c, hc, hcode⟩ := List.map_eq_singleton_iff.1 hshown
  rw [quoted, List.cons_append, ByteString.character?, if_pos ⟨rfl, hb⟩, hread, Option.bind_eq_bind,
    Option.bind_some]
  dsimp only
  rw [List.drop_left, if_pos rfl, hc, ← hcode]

/-- What is read as a character denotes one. -/
theorem denotes_of_character? {text : ByteString} {v : Nat}
    (h : character? (quoted text) = some v) :
    ∃ code, Denotes text code := by
  cases text with
  | nil => cases h
  | cons b bs =>
    rw [quoted, List.cons_append, character?] at h
    split at h
    · rename_i hb
      obtain ⟨⟨denoted, more⟩, hread, h⟩ := Option.bind_eq_some_iff.1 h
      dsimp only at h
      split at h
      · rename_i hdrop
        have hlength := congrArg List.length hdrop
        rw [List.length_drop, List.length_append, List.length_singleton] at hlength
        obtain rfl : more = bs.length := by omega
        exact denotes_of_literalChar? hb.2 hread
      · cases h
    · cases h

/-- Exactly what denotes a character is read as one. -/
theorem character?_quoted {text : ByteString} {v : Nat} :
    character? (quoted text) = some v ↔ ∃ code, Denotes text code ∧ v = codeRead text code := by
  constructor
  · intro h
    obtain ⟨code, hcode⟩ := denotes_of_character? h
    exact ⟨code, hcode, Option.some.inj (h.symm.trans hcode.character?)⟩
  · rintro ⟨code, hcode, rfl⟩
    exact hcode.character?

theorem trim_quoted (text : ByteString) : trim (quoted text) = quoted text := by
  have hlast : (quoted text).getLast? = some (ascii '\'') := by
    rw [quoted, ← List.cons_append, List.getLast?_concat]
  refine trim_of_visible ?_ ?_
  · rintro b ⟨⟩
    decide
  · rw [hlast]
    rintro b ⟨⟩
    decide

end ByteString

open ByteString

variable {text : ByteString} {code : Nat}

/-- A literal between single quotation marks is read as a character and compared with the bounds. -/
theorem readLiteral_quoted (low high : Int) (text : ByteString) :
    readLiteral low high (quoted text) =
      match character? (quoted text) with
      | none => .error (.badCharacter (quoted text))
      | some v =>
        if (v : Int) < low ∨ high < v then .error (.outside (quoted text) low high) else .ok v := by
  have hvalue : literalValue (quoted text) =
      match character? (quoted text) with
      | none => .error (.badCharacter (quoted text))
      | some v => .ok (v : Int) := by
    rw [quoted, literalValue.eq_def]
    cases character? (ascii '\'' :: (text ++ [ascii '\''])) with
    | none => rfl
    | some v => rfl
  rw [readLiteral, trim_quoted, hvalue]
  cases character? (quoted text) with
  | none => rfl
  | some v => rfl

/-- What denotes a character has the code that is read as its value, within the bounds. -/
theorem ByteString.Denotes.readLiteral (h : Denotes text code) (low high : Int) :
    MipsAssembler.readLiteral low high (quoted text) =
      if low ≤ codeRead text code ∧ codeRead text code ≤ high then .ok (codeRead text code)
      else .error (.outside (quoted text) low high) := by
  rw [readLiteral_quoted, h.character?]
  by_cases hin : low ≤ codeRead text code ∧ codeRead text code ≤ high
  · rw [if_pos hin]
    exact if_neg (by omega)
  · rw [if_neg hin]
    exact if_pos (by omega)

/-- **The value of a character literal.** A text between single quotation marks that denotes a
character has the code of the character as its value if this is within the bounds, and is refused
because of the bounds if it is not. This holds of all forms but the escapes for bytes of 0x80 or
more: whatever the byte is, their value is 0xFFFD. A text that denotes no character is refused. -/
theorem readLiteral_character (low high : Int) (text : ByteString) :
    (∀ code, Denotes text code → (isByteEscape text = true → code < 0x80) →
        (low ≤ code ∧ code ≤ high → readLiteral low high (quoted text) = .ok code) ∧
        (¬ (low ≤ code ∧ code ≤ high) →
          ∃ e, readLiteral low high (quoted text) = .error e ∧ e.kind = .fieldOverflow)) ∧
      (∀ code, Denotes text code → isByteEscape text = true → 0x80 ≤ code →
        readLiteral low high (quoted text) =
          if low ≤ 0xFFFD ∧ 0xFFFD ≤ high then .ok 0xFFFD
          else .error (.outside (quoted text) low high)) ∧
      ((∀ code, ¬ Denotes text code) →
        readLiteral low high (quoted text) = .error (.badCharacter (quoted text))) := by
  refine ⟨fun code hcode hbyte => ?_, fun code hcode hbyte hhigh => ?_, fun hnone => ?_⟩
  · have hread : codeRead text code = code := if_neg fun h => by have := hbyte h.1; omega
    have hvalue := hcode.readLiteral low high
    rw [hread] at hvalue
    refine ⟨fun hin => ?_, fun hout => ⟨.outside (quoted text) low high, ?_, rfl⟩⟩
    · rw [hvalue, if_pos hin]
    · rw [hvalue, if_neg hout]
  · have hread : codeRead text code = 0xFFFD := if_pos ⟨hbyte, hhigh⟩
    rw [hcode.readLiteral low high, hread]
    rfl
  · have hchar : character? (quoted text) = none := by
      refine Option.eq_none_iff_forall_ne_some.2 fun v hv => ?_
      obtain ⟨code, hcode, -⟩ := character?_quoted.1 hv
      exact hnone code hcode
    rw [readLiteral_quoted, hchar]

/-- The letter é by its code point, within bounds and not, and by its number as a byte. -/
theorem readLiteral_character_point :
    readLiteral (-0x80) 0xFF (quoted "\\u00e9") = .ok 0xE9 ∧
      (∃ e, readLiteral (-0x80) 0x7F (quoted "\\u00e9") = .error e ∧ e.kind = .fieldOverflow) ∧
      readLiteral 0 0xFFFF (quoted "\\351") = .ok 0xFFFD := by
  have hpoint : Denotes "\\u00e9" 0xE9 :=
    .point (s := "00e9") (show ('u', 4) ∈ pointEscapes by decide)
      ⟨[0, 0, 14, 9], by decide, rfl⟩ (by decide)
  have hoctal : Denotes "\\351" 0xE9 :=
    .octal (s := "351") rfl ⟨[3, 5, 1], by decide, rfl⟩ (by decide)
  have hwide := (readLiteral_character (-0x80) 0xFF "\\u00e9").1 _ hpoint (by decide)
  have hnarrow := (readLiteral_character (-0x80) 0x7F "\\u00e9").1 _ hpoint (by decide)
  have hbyte := (readLiteral_character 0 0xFFFF "\\351").2.1 _ hoctal (by decide) (by decide)
  exact ⟨hwide.1 (by decide), hnarrow.2 (by decide), hbyte⟩

/-- The byte 0xFF by its number is refused where it would fit. -/
theorem readLiteral_high_byte :
    Denotes "\\xff" 0xFF ∧
      ¬ ((-0x80 : Int) ≤ 0xFF ∧ (0xFF : Int) ≤ 0xFF →
        readLiteral (-0x80) 0xFF (quoted "\\xff") = .ok 0xFF) := by
  have hbyte : Denotes "\\xff" 0xFF := .byte (s := "ff") rfl ⟨[15, 15], by decide, rfl⟩
  have hrefused := hbyte.readLiteral (-0x80) 0xFF
  refine ⟨hbyte, fun h => ?_⟩
  rw [h (by decide)] at hrefused
  cases hrefused

end MipsAssembler
