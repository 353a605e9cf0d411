import MipsAssembler.ByteString.Numeral

/-!
# Percentages

A percentage is the quotient of two floating-point numbers, times a hundred, written with three
places. The value that is written is the exact value of the floating-point result, rounded to the
nearest thousandth; a value half way between two goes to the even one.
-/

namespace MipsAssembler

open ByteString

namespace Percentage

/-- The sign, the significand and the exponent of a finite floating-point number, which is
`significand * 2 ^ exponent`. -/
def parts (x : Float) : Bool × Nat × Int :=
  let bits := x.toBits.toNat
  let fraction : Nat := bits % 0x10000000000000
  let exponent : Nat := (bits >>> 52) % 0x800
  let negative := 0x8000000000000000 ≤ bits
  if exponent = 0 then (negative, fraction, -1074)
  else (negative, fraction + 0x10000000000000, (exponent : Int) - 1075)

/-- The quotient `a / b` rounded to the nearest natural number, a half to the even one. -/
def roundQuotient (a b : Nat) : Nat :=
  let q := a / b
  let r := 2 * (a % b)
  if b < r ∨ (r = b ∧ q % 2 = 1) then q + 1 else q

/-- The magnitude of `significand * 2 ^ exponent` in thousandths. -/
def thousandths (significand : Nat) (exponent : Int) : Nat :=
  if 0 ≤ exponent then (1000 * significand) <<< exponent.toNat
  else roundQuotient (1000 * significand) (1 <<< (-exponent).toNat)

/-- A floating-point number with three places. -/
def fixed (x : Float) : ByteString :=
  let (negative, significand, exponent) := parts x
  let n := thousandths significand exponent
  (if negative then "-" else "") ++ natural (n / 1000) ++ "." ++
    (padded 3 (digits 10 (n % 1000))).map digitByte

/-- The share of `n` in `total` as a percentage. -/
def render (n total : Int) : ByteString :=
  fixed (Float.ofInt n / Float.ofInt total * 100) ++ "%"

end Percentage

end MipsAssembler
