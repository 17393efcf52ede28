/-! # Double precision numbers as whole numbers times powers of two

A finite double is `m · 2^q` with a sign. `Double.ofBits` takes the 64 bits apart and `nearestBits`
puts them together for the double nearest to a ratio of whole numbers; all of it is exact arithmetic
on `Nat`. -/

namespace Worksheet.Decimal

/-- The meaning of 64 bits: no number, an infinity, or `m · 2^q` with a sign. -/
inductive Double where
  | nan
  | infinite (negative : Bool)
  | finite (negative : Bool) (m : Nat) (q : Int)
deriving DecidableEq, Repr

/-- The least exponent, that of the subnormal numbers. -/
def leastExponent : Int := -1074

/-- The power of a base, 1 below exponent 0. The ratio of `power b q` to `power b (-q)` is `b^q`. -/
def power (base : Nat) (exponent : Int) : Nat := Nat.pow base exponent.toNat

/-- The hidden leading bit of a normal number, above the 52 bits of its fraction. -/
def hiddenBit : Nat := 0x10000000000000

/-- The highest of the 64 bits. -/
def signBit : Nat := 0x8000000000000000

/-- The bits of the positive infinity. -/
def infinityBits : Nat := 2047 * hiddenBit

/-- The bits of a number that is not one. -/
def nanBits : Nat := infinityBits + hiddenBit / 2

/-- The bits with a sign. -/
def withSign (negative : Bool) (bits : Nat) : Nat := if negative then signBit + bits else bits

namespace Double

/-- The meaning of the bits: a sign, eleven bits of exponent, and a fraction. -/
def ofBits (bits : Nat) : Double :=
  let negative := decide (signBit ≤ bits)
  let exponent := bits / hiddenBit % 2048
  let fraction := bits % hiddenBit
  if exponent = 2047 then if fraction = 0 then .infinite negative else .nan
  else if exponent = 0 then .finite negative fraction leastExponent
  else .finite negative (hiddenBit + fraction) (leastExponent + (exponent - 1))

end Double

/-- The quotient rounded to the nearest whole number, a half to the even neighbour. -/
def roundHalfEven (a b : Nat) : Nat :=
  if b < 2 * (a % b) ∨ (2 * (a % b) = b ∧ a / b % 2 = 1) then a / b + 1 else a / b

/-- The exponent of the power of two at or just below the ratio `a / b`. -/
def log2Ratio (a b : Nat) : Int :=
  let e : Int := a.log2 - b.log2
  if b * power 2 e ≤ a * power 2 (-e) then e else e - 1

/-- The bits of the double nearest to the ratio `a / b` of positive numbers, ties to even; what is
too large becomes the infinity. The next number after the largest fraction is the first one of the
next exponent, so rounding up needs no case of its own. -/
def nearestBits (a b : Nat) : Nat :=
  let q := max (log2Ratio a b - 52) leastExponent
  let m := roundHalfEven (a * power 2 (-q)) (b * power 2 q)
  min infinityBits (if m < hiddenBit then m else (q - leastExponent).toNat * hiddenBit + m)

end Worksheet.Decimal
