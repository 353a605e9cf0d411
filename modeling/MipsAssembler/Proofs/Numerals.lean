import Mathlib.Algebra.Group.Nat.Defs
import MipsAssembler.Proofs.PlainText

/-!
# Numerals that read back

A number is written as its digits, and digits are read one after the other into a number. That the
two agree is a fact about digits to any base (`value_digits`, `readDigits_digitByte`); what is added
for a numeral as a whole is that the base it is read to is the one it was written to. For
hexadecimal the mark says so, and zeros that fill up to a width do not matter. For decimal it is
because only zero starts with the digit zero (`digits_head`).

`readLiteral_hex` and `readLiteral_decimal` say this of literals in a range.
-/

namespace MipsAssembler

open ByteString

namespace ByteString

/-! ## Digits -/

/-- The number that digits write, most significant first, after `n`. -/
def valueFrom (base n : Nat) (ds : List Nat) : Nat := ds.foldl (fun n d => n * base + d) n

variable {base : Nat}

theorem le_valueFrom (hbase : 1 ≤ base) (n : Nat) (ds : List Nat) : n ≤ valueFrom base n ds := by
  induction ds generalizing n with
  | nil => exact Nat.le_refl n
  | cons d ds ih =>
    calc n ≤ n * base := Nat.le_mul_of_pos_right n hbase
      _ ≤ n * base + d := Nat.le_add_right _ _
      _ ≤ valueFrom base n (d :: ds) := ih (n * base + d)

theorem lt_of_mem_digitsFrom (hbase : 1 ≤ base) {fuel n d : Nat} (h : d ∈ digitsFrom base fuel n) :
    d < base := by
  induction fuel generalizing n with
  | zero => simp [digitsFrom] at h
  | succ fuel ih =>
    rw [digitsFrom] at h
    split at h
    · rename_i hn
      rwa [List.mem_singleton.1 h]
    · rcases List.mem_append.1 h with h | h
      · exact ih h
      · rw [List.mem_singleton.1 h]
        exact Nat.mod_lt n hbase

/-- Enough digits write the number, and the first of them is not zero. -/
theorem value_digitsFrom (hbase : 1 ≤ base) {fuel n : Nat} (h : n < base ^ fuel) :
    valueFrom base 0 (digitsFrom base fuel n) = n ∧
      (n ≠ 0 → ∃ d ds, digitsFrom base fuel n = d :: ds ∧ d ≠ 0) := by
  induction fuel generalizing n with
  | zero =>
    obtain rfl : n = 0 := by simpa using h
    exact ⟨rfl, absurd rfl⟩
  | succ fuel ih =>
    rw [digitsFrom]
    split
    · exact ⟨by simp [valueFrom], fun hn => ⟨n, [], rfl, hn⟩⟩
    · rename_i hle
      have hdiv : n / base < base ^ fuel := Nat.div_lt_of_lt_mul (by rwa [pow_succ, mul_comm] at h)
      have hpos : n / base ≠ 0 := Nat.div_ne_zero_iff.2 ⟨by omega, by omega⟩
      obtain ⟨hvalue, hhead⟩ := ih hdiv
      obtain ⟨d, ds, hds, hd⟩ := hhead hpos
      refine ⟨?_, fun _ => ⟨d, ds ++ [n % base], by rw [hds, List.cons_append], hd⟩⟩
      rw [valueFrom, List.foldl_append]
      change valueFrom base 0 (digitsFrom base fuel (n / base)) * base + n % base = n
      rw [hvalue, Nat.div_add_mod']

theorem lt_pow_log2 (hbase : 2 ≤ base) (n : Nat) : n < base ^ (n.log2 + 1) :=
  Nat.lt_of_lt_of_le Nat.lt_log2_self (Nat.pow_le_pow_left hbase _)

theorem value_digits (hbase : 2 ≤ base) (n : Nat) : valueFrom base 0 (digits base n) = n :=
  (value_digitsFrom (by omega) (lt_pow_log2 hbase n)).1

theorem digits_head (hbase : 2 ≤ base) {n : Nat} (hn : n ≠ 0) :
    ∃ d ds, digits base n = d :: ds ∧ d ≠ 0 :=
  (value_digitsFrom (by omega) (lt_pow_log2 hbase n)).2 hn

theorem lt_of_mem_digits (hbase : 2 ≤ base) {n d : Nat} (h : d ∈ digits base n) : d < base :=
  lt_of_mem_digitsFrom (by omega) h

theorem digits_ne_nil (n : Nat) : digits base n ≠ [] := by
  rw [digits, digitsFrom]
  split <;> simp

/-! ## Bytes of digits -/

theorem digitByte_facts : ∀ d < 16, digitValue? (digitByte d) = some d ∧ digitByte d ≠ ascii '_' ∧
    digitByte d ≠ ascii '-' ∧ digitByte d ≠ ascii '+' ∧ (digitByte d = ascii '0' → d = 0) := by
  decide

/-- Is `b` a digit, a letter or a minus sign? -/
def isNumeralByte (b : UInt8) : Bool := isDigit b || isLetter b || b == ascii '-'

theorem isNumeralByte_digitByte : ∀ d < 16, isNumeralByte (digitByte d) = true := by
  decide

theorem isWordByte_of_isNumeralByte {b : UInt8} : isNumeralByte b = true → isWordByte b = true :=
  forall_byte (P := fun b => isNumeralByte b = true → isWordByte b = true) (by decide +kernel) b

/-- Digits are read as the number that they write. -/
theorem readDigits_digitByte (hbase : 1 ≤ base) (hle : base ≤ 16) {limit n : Nat} {ds : List Nat}
    (hds : ∀ d ∈ ds, d < base) (hlimit : valueFrom base n ds ≤ limit) :
    readDigits base limit n (ds.map digitByte) = .ok (valueFrom base n ds) := by
  induction ds generalizing n with
  | nil => rfl
  | cons d ds ih =>
    have hd := hds d (by simp)
    obtain ⟨hvalue, hseparator, -⟩ := digitByte_facts d (by omega)
    have hdigit : digitOf? base (digitByte d) = some d := by
      rw [digitOf?, hvalue]
      exact Option.filter_eq_some_iff.2 ⟨rfl, by simpa using hd⟩
    have hnext : n * base + d ≤ limit := Nat.le_trans (le_valueFrom hbase _ ds) hlimit
    rw [List.map_cons, readDigits, if_neg hseparator, hdigit]
    simp only [if_neg (Nat.not_lt.2 hnext)]
    exact ih (fun d' hd' => hds d' (by simp [hd'])) hlimit

/-- No separator is out of place where there is none. -/
theorem separatorsOk_of_notMem {s : ByteString} (h : ascii '_' ∉ s) {marked : Bool}
    (hs : marked = true ∨ s ≠ []) : separatorsOk marked s = true := by
  induction s generalizing marked with
  | nil => simpa [separatorsOk] using hs
  | cons b s ih =>
    rw [List.mem_cons, not_or] at h
    rw [separatorsOk, if_neg (Ne.symm h.1)]
    exact ih h.2 (.inl rfl)

theorem separator_notMem {ds : List Nat} (hds : ∀ d ∈ ds, d < 16) :
    ascii '_' ∉ ds.map digitByte := by
  intro hmem
  obtain ⟨d, hd, hbyte⟩ := List.mem_map.1 hmem
  exact (digitByte_facts d (hds d hd)).2.1 hbyte

/-! ## Numerals -/

theorem valueFrom_padded (width : Nat) (ds : List Nat) :
    valueFrom base 0 (padded width ds) = valueFrom base 0 ds := by
  rw [padded]
  induction width - ds.length with
  | zero => rfl
  | succ k ih => simpa [List.replicate_succ, valueFrom] using ih

theorem lt_of_mem_padded {width n d : Nat} (h : d ∈ padded width (digits 16 n)) : d < 16 := by
  rw [padded, List.mem_append, List.mem_replicate] at h
  rcases h with ⟨-, rfl⟩ | h
  · decide
  · exact lt_of_mem_digits (by decide) h

theorem hex_ne_nil (width n : Nat) : hex width n ≠ [] := by
  simp [hex, padded, digits_ne_nil]

theorem natural_ne_nil (n : Nat) : natural n ≠ [] := by
  simp [natural, digits_ne_nil]

theorem readNatural_hex {limit n : Nat} (width : Nat) (h : n ≤ limit) :
    readNatural limit ("0x" ++ hex width n) = .ok n := by
  have hbase : baseOf ("0x" ++ hex width n) = (16, true, hex width n) := by
    obtain ⟨b, rest, hb⟩ := List.exists_cons_of_ne_nil (hex_ne_nil width n)
    rw [hb]
    rfl
  have hvalue : valueFrom 16 0 (padded width (digits 16 n)) = n := by
    rw [valueFrom_padded, value_digits (by decide)]
  have hdigits : ∀ d ∈ padded width (digits 16 n), d < 16 := fun d hd => lt_of_mem_padded hd
  have hread : readDigits 16 limit 0 (hex width n) = .ok n := by
    rw [hex, readDigits_digitByte (by decide) (by decide) hdigits (by rwa [hvalue]), hvalue]
  have hseparators : separatorsOk true (hex width n) = true :=
    separatorsOk_of_notMem (separator_notMem hdigits) (.inl rfl)
  have hne : ("0x" ++ hex width n : ByteString) ≠ [] := List.cons_ne_nil _ _
  rw [readNatural, if_neg hne, hbase]
  simp only [hread, hseparators, if_true]

theorem baseOf_of_ne {b : UInt8} (h : b ≠ ascii '0') (s : ByteString) :
    baseOf (b :: s) = (10, false, b :: s) := by
  rcases s with _ | ⟨c, _ | ⟨d, s⟩⟩ <;> simp [baseOf, h]

theorem readNatural_natural {limit n : Nat} (h : n ≤ limit) :
    readNatural limit (natural n) = .ok n := by
  by_cases hn : n = 0
  · subst hn
    rfl
  obtain ⟨d, ds, hds, hd⟩ := @digits_head 10 (by decide) n hn
  have hdigits : ∀ d' ∈ digits 10 n, d' < 10 := fun d' hd' => lt_of_mem_digits (by decide) hd'
  have hlt : d < 10 := hdigits d (by simp [hds])
  have hbase : baseOf (natural n) = (10, false, natural n) := by
    rw [natural, hds, List.map_cons]
    exact baseOf_of_ne (fun hzero => hd ((digitByte_facts d (by omega)).2.2.2.2 hzero)) _
  have hread : readDigits 10 limit 0 (natural n) = .ok n := by
    have hvalue : valueFrom 10 0 (digits 10 n) = n := value_digits (by decide) n
    rw [natural, readDigits_digitByte (by decide) (by decide) hdigits (by rwa [hvalue]), hvalue]
  have hseparators : separatorsOk false (natural n) = true := by
    refine separatorsOk_of_notMem (separator_notMem fun d' hd' => ?_) (.inr (natural_ne_nil n))
    exact Nat.lt_trans (hdigits d' hd') (by decide)
  rw [readNatural, if_neg (natural_ne_nil n), hbase]
  simp only [hread, hseparators, if_true]

theorem signOf_natural (n : Nat) : signOf (natural n) = (false, natural n) := by
  obtain ⟨d, ds, hds⟩ := List.exists_cons_of_ne_nil (@digits_ne_nil 10 n)
  have hd : d < 10 := lt_of_mem_digits (by decide) (by rw [hds]; simp)
  obtain ⟨-, -, hminus, hplus, -⟩ := digitByte_facts d (by omega)
  rw [natural, hds, List.map_cons, signOf, if_neg hminus, if_neg hplus]

theorem readInteger?_hex {n : Nat} (width : Nat) (h : n < 0x8000000000000000) :
    readInteger? ("0x" ++ hex width n) = some (n : Int) := by
  have hsign : signOf ("0x" ++ hex width n) = (false, "0x" ++ hex width n) := rfl
  rw [readInteger?, hsign]
  simp only [readNatural_hex width (show n ≤ 0xFFFFFFFFFFFFFFFF by omega), signed?, h, if_true]
  rfl

theorem readInteger?_decimal {v : Int} (hlow : -0x8000000000000000 ≤ v)
    (hhigh : v < 0x8000000000000000) : readInteger? (decimal v) = some v := by
  cases v with
  | ofNat n =>
    have hn : n < 0x8000000000000000 := Int.ofNat_lt.1 hhigh
    rw [readInteger?, decimal, signOf_natural]
    simp only [readNatural_natural (show n ≤ 0xFFFFFFFFFFFFFFFF by omega), signed?, hn, if_true]
    rfl
  | negSucc n =>
    have hn : n + 1 ≤ 0x8000000000000000 := by omega
    have hsign : signOf (decimal (.negSucc n)) = (true, natural (n + 1)) := rfl
    rw [readInteger?, hsign]
    simp only [readNatural_natural (show n + 1 ≤ 0xFFFFFFFFFFFFFFFF by omega), signed?, hn, if_true]
    rfl

/-- A text of digits, letters and minus signs that does not start like a name. -/
structure IsNumeral (s : ByteString) : Prop where
  ne_nil : s ≠ []
  bytes : ∀ b ∈ s, isNumeralByte b = true
  first : ∀ b ∈ s.head?, isLetter b = false

theorem IsNumeral.isWord {s : ByteString} (h : IsNumeral s) : IsWord s where
  ne_nil := h.ne_nil
  bytes b hb := isWordByte_of_isNumeralByte (h.bytes b hb)

theorem isNumeral_hex (width n : Nat) : IsNumeral ("0x" ++ hex width n) where
  ne_nil := List.cons_ne_nil _ _
  bytes b hb := by
    have hmark : (ofString "0x").all isNumeralByte = true := rfl
    rcases List.mem_append.1 hb with hb | hb
    · exact List.all_eq_true.1 hmark b hb
    · obtain ⟨d, hd, rfl⟩ := List.mem_map.1 hb
      exact isNumeralByte_digitByte d (lt_of_mem_padded hd)
  first := by
    rintro b ⟨⟩
    decide

theorem isNumeral_natural (n : Nat) : IsNumeral (natural n) where
  ne_nil := natural_ne_nil n
  bytes b hb := by
    obtain ⟨d, hd, rfl⟩ := List.mem_map.1 hb
    exact isNumeralByte_digitByte d (Nat.lt_trans (lt_of_mem_digits (by decide) hd) (by decide))
  first b hb := by
    obtain ⟨d, hd, rfl⟩ := List.mem_map.1 (List.mem_of_mem_head? hb)
    have hletter : ∀ d < 10, isLetter (digitByte d) = false := by decide
    exact hletter d (lt_of_mem_digits (by decide) hd)

theorem isNumeral_decimal (v : Int) : IsNumeral (decimal v) := by
  cases v with
  | ofNat n => exact isNumeral_natural n
  | negSucc n =>
    refine ⟨List.cons_ne_nil _ _, fun b hb => ?_, ?_⟩
    · rcases List.mem_cons.1 hb with rfl | hb
      · decide
      · exact (isNumeral_natural (n + 1)).bytes b hb
    · rintro b ⟨⟩
      decide

end ByteString

/-! ## Literals -/

/-- A numeral is read as the integer that it is, which is then compared with the range. -/
theorem readLiteral_numeral {low high v : Int} {text : ByteString} (h : IsNumeral text)
    (hread : readInteger? text = some v) :
    readLiteral low high text =
      if v < low ∨ high < v then .error (.outside text low high) else .ok v := by
  have hvalue : literalValue text = .ok v := by
    obtain ⟨b, rest, rfl⟩ := List.exists_cons_of_ne_nil h.ne_nil
    have hquote := isQuotationMark_of_isPlainByte (h.isWord.isPlain.bytes b (by simp))
    have hb : b ≠ ascii '\'' := by
      rintro rfl
      cases hquote
    rw [literalValue, if_neg hb, hread]
  rw [readLiteral, h.isWord.isPlain.trim_eq_self, hvalue]

theorem readLiteral_eq_ok {low high v : Int} {text : ByteString} (h : IsNumeral text)
    (hread : readInteger? text = some v) (hlow : low ≤ v) (hhigh : v ≤ high) :
    readLiteral low high text = .ok v := by
  rw [readLiteral_numeral h hread]
  exact if_neg (by omega)

theorem readLiteral_hex {low high : Int} {n : Nat} (width : Nat) (hlow : low ≤ n) (hhigh : n ≤ high)
    (h : high < 0x8000000000000000) : readLiteral low high ("0x" ++ hex width n) = .ok n :=
  readLiteral_eq_ok (isNumeral_hex width n) (readInteger?_hex width (by omega)) hlow hhigh

theorem readLiteral_decimal {low high v : Int} (hlow : low ≤ v) (hhigh : v ≤ high)
    (hmin : -0x8000000000000000 ≤ low) (hmax : high < 0x8000000000000000) :
    readLiteral low high (decimal v) = .ok v :=
  readLiteral_eq_ok (isNumeral_decimal v) (readInteger?_decimal (by omega) (by omega)) hlow hhigh

/-! ## Machine numbers -/

theorem byte_ofInt_toNat (n : UInt8) : UInt8.ofInt (n.toNat : Int) = n := by
  have hn := n.toNat_lt
  rw [← UInt8.toNat_inj, UInt8.ofInt, UInt8.toNat_ofNat']
  omega

theorem half_ofInt_toNat (n : UInt16) : UInt16.ofInt (n.toNat : Int) = n := by
  have hn := n.toNat_lt
  rw [← UInt16.toNat_inj, UInt16.ofInt, UInt16.toNat_ofNat']
  omega

theorem word_ofInt_toNat (n : UInt32) : UInt32.ofInt (n.toNat : Int) = n := by
  have hn := n.toNat_lt
  rw [← UInt32.toNat_inj, UInt32.ofInt, UInt32.toNat_ofNat']
  omega

end MipsAssembler
