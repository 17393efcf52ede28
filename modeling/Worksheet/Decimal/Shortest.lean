import Worksheet.Decimal.Double
import Worksheet.Text.Digits

/-! # The fewest digits that read back

The reals that round to `m · 2^q` form an interval, its ends included iff `m` is even. For one
digit, two digits and so on, the value has two neighbours on the decimal grid of that many digits;
the first grid with a neighbour in the interval decides, and of two such neighbours the nearer one,
the upper one of a tie. -/

namespace Worksheet.Decimal

open Worksheet.Text

/-- The exponent of the power of ten at or just below the ratio `a / b` of positive numbers. -/
def log10Ratio (a b : Nat) : Int :=
  if b ≤ a then (digitsOf (a / b)).length - 1
  else -((digitsOf ((b + a - 1) / a - 1)).length : Int)

/-- The exponent of the power of ten at or just below `m · 2^q`. -/
def log10 (m : Nat) (q : Int) : Int := log10Ratio (m * power 2 q) (power 2 (-q))

/-- The distance from `m · 2^q` down to the next rounding border, in quarters of `2^q`. Below a
power of two the numbers lie twice as close. -/
def quartersBelow (m : Nat) (q : Int) : Nat := if m = hiddenBit ∧ leastExponent < q then 1 else 2

/-- The multiple of `10^p` that reads back as `m · 2^q`, if there is one; the nearest if there are
two. All sizes are whole multiples of the same unit. -/
def onGrid? (m : Nat) (q p : Int) : Option Nat :=
  let quarter := power 2 (q - 2) * power 10 (-p)
  let step := power 2 (2 - q) * power 10 p
  let v := 4 * m * quarter
  let low := (4 * m - quartersBelow m q) * quarter
  let high := (4 * m + 2) * quarter
  let inside (x : Nat) : Bool := if m % 2 = 0 then low ≤ x && x ≤ high else low < x && x < high
  let below := v / step
  let above := below + 1
  match inside (below * step), inside (above * step) with
  | true, true => some (if above * step - v ≤ v - below * step then above else below)
  | true, false => some below
  | false, true => some above
  | false, false => none

/-- The digits `d` and the exponent `p` of the shortest decimal `d · 10^p` that reads back as
`m · 2^q`. Seventeen digits are always enough. -/
def shortest (m : Nat) (q : Int) : Nat × Int :=
  let top := log10 m q
  let grids := (List.range 17).map fun k : Nat => top - (k : Int)
  (grids.findSome? fun p => (onGrid? m q p).map (·, p)).getD (0, 0)

end Worksheet.Decimal
