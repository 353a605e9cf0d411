import MipsAssembler.ByteString.Basic

/-!
# Numerals

How numbers are written and read.

* `decimal`, `hex` and `lowerHex` write numbers; hexadecimal digits are capitals except in escapes.
* `readNatural` reads a numeral with an optional base mark (`0x`, `0o`, `0b`, or a leading zero for
  base eight) and `_` between digits, up to a limit. The first fault from the left decides: a byte
  that is no digit of the base, or a digit that carries the value past the limit. A misplaced `_` is
  noticed last.
* `readInteger?` adds a sign and the range of 64 bits, `readDecimal?` knows signed decimals only.
-/

namespace MipsAssembler

namespace ByteString

/-! ## Writing -/

/-- The byte of the digit `d` below sixteen, with capital letters. -/
def digitByte (d : Nat) : UInt8 := UInt8.ofNat (if d < 10 then 0x30 + d else 0x37 + d)

/-- The byte of the digit `d` below sixteen, with small letters. -/
def lowerDigitByte (d : Nat) : UInt8 := UInt8.ofNat (if d < 10 then 0x30 + d else 0x57 + d)

/-- The digits of `n` to the given base, most significant first, at most `fuel` of them. -/
def digitsFrom (base : Nat) : Nat → Nat → List Nat
  | 0, _ => []
  | fuel + 1, n => if n < base then [n] else digitsFrom base fuel (n / base) ++ [n % base]

/-- The digits of `n` to a base of at least two. A number has no more digits than bits. -/
def digits (base n : Nat) : List Nat := digitsFrom base (n.log2 + 1) n

/-- `ds` with zeros before it up to `width` digits. -/
def padded (width : Nat) (ds : List Nat) : List Nat := List.replicate (width - ds.length) 0 ++ ds

/-- `n` in decimal. -/
def natural (n : Nat) : ByteString := (digits 10 n).map digitByte

/-- `n` in decimal, with a minus sign if it is negative. -/
def decimal : Int → ByteString
  | .ofNat n => natural n
  | .negSucc n => ascii '-' :: natural (n + 1)

/-- `n` in hexadecimal with at least `width` digits. -/
def hex (width n : Nat) : ByteString := (padded width (digits 16 n)).map digitByte

/-- `n` in hexadecimal with at least `width` digits and small letters. -/
def lowerHex (width n : Nat) : ByteString := (padded width (digits 16 n)).map lowerDigitByte

/-- An address or a machine word: `0x` and eight digits. -/
def hexWord (w : UInt32) : ByteString := "0x" ++ hex 8 w.toNat

/-- A byte: `0x` and two digits. -/
def hexByte (b : UInt8) : ByteString := "0x" ++ hex 2 b.toNat

/-! ## Reading -/

/-- What can be wrong with a numeral. -/
inductive NumeralError where
  | malformed
  | outOfRange
  deriving DecidableEq, Repr

/-- The value of a digit or letter: `0` to `9`, then letters of either case from ten on. -/
def digitValue? (b : UInt8) : Option Nat :=
  let n := b.toNat
  if isDigit b then some (n - 0x30)
  else if isLetter b then some (n % 0x20 + 9)
  else none

/-- The value of a digit to the given base. -/
def digitOf? (base : Nat) (b : UInt8) : Option Nat := (digitValue? b).filter (· < base)

/-- The number that digits to the given base write after `n`, up to `limit`. A `_` is passed over. -/
def readDigits (base limit : Nat) : Nat → ByteString → Except NumeralError Nat
  | n, [] => .ok n
  | n, b :: bs =>
    if b = ascii '_' then readDigits base limit n bs
    else match digitOf? base b with
      | none => .error .malformed
      | some d =>
        if limit < n * base + d then .error .outOfRange
        else readDigits base limit (n * base + d) bs

/-- Does every `_` stand between two digits? `before` says whether a digit, or the base mark, stands
before the text. -/
def separatorsOk : Bool → ByteString → Bool
  | before, [] => before
  | before, b :: bs => if b = ascii '_' then before && separatorsOk false bs else separatorsOk true bs

/-- The base that a numeral is written to, and its digits: `0x`, `0o` and `0b` before at least one
more byte, and a leading zero, mark the base. -/
def baseOf : ByteString → Nat × Bool × ByteString
  | z :: b :: c :: rest =>
    if z = ascii '0' then
      if b = ascii 'x' ∨ b = ascii 'X' then (16, true, c :: rest)
      else if b = ascii 'o' ∨ b = ascii 'O' then (8, true, c :: rest)
      else if b = ascii 'b' ∨ b = ascii 'B' then (2, true, c :: rest)
      else (8, true, b :: c :: rest)
    else (10, false, z :: b :: c :: rest)
  | z :: rest => if z = ascii '0' then (8, true, rest) else (10, false, z :: rest)
  | [] => (10, false, [])

/-- Reads a numeral without a sign, up to `limit`. -/
def readNatural (limit : Nat) (s : ByteString) : Except NumeralError Nat :=
  if s = [] then .error .malformed
  else
    let (base, marked, body) := baseOf s
    match readDigits base limit 0 body with
    | .error e => .error e
    | .ok n => if separatorsOk marked body then .ok n else .error .malformed

/-- The sign of a numeral, `true` for a minus, and what follows it. -/
def signOf : ByteString → Bool × ByteString
  | b :: rest =>
    if b = ascii '-' then (true, rest) else if b = ascii '+' then (false, rest)
    else (false, b :: rest)
  | [] => (false, [])

/-- A magnitude with its sign, if it is in the range of 64 bits. -/
def signed? (negative : Bool) (magnitude : Nat) : Option Int :=
  if negative then
    if magnitude ≤ 0x8000000000000000 then some (-magnitude) else none
  else if magnitude < 0x8000000000000000 then some magnitude else none

/-- Reads a numeral with an optional sign, in the range of 64 bits. -/
def readInteger? (s : ByteString) : Option Int :=
  let (negative, body) := signOf s
  match readNatural 0xFFFFFFFFFFFFFFFF body with
  | .ok n => signed? negative n
  | .error _ => none

/-- Reads decimal digits with an optional sign, in the range of 64 bits. -/
def readDecimal? (s : ByteString) : Option Int :=
  let (negative, body) := signOf s
  if body ≠ [] ∧ body.all isDigit then
    signed? negative (body.foldl (fun n b => n * 10 + (b.toNat - 0x30)) 0)
  else none

end ByteString

end MipsAssembler
