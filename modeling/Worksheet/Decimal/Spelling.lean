import Worksheet.Decimal.Shortest

/-! # Numbers as text

Numbers are written with the fewest digits that read back, always positionally and without a point
if they are whole. They are read with an optional sign, point and exponent, or as an infinity or
`nan` in any case, and rounded once, exactly, to the nearest double. -/

namespace Worksheet.Decimal

open Worksheet.Text

/-! ### Writing -/

/-- The digits of `d · 10^p` without exponent. -/
def positional (d : Nat) (p : Int) : List Char :=
  let digits := (digitsOf d).reverse.dropWhile (· == '0') |>.reverse
  let p := p + ((digitsOf d).length - digits.length : Nat)
  let whole : Int := digits.length + p
  if 0 ≤ p then digits ++ List.replicate p.toNat '0'
  else if 0 < whole then digits.take whole.toNat ++ '.' :: digits.drop whole.toNat
  else '0' :: '.' :: (List.replicate (-whole).toNat '0' ++ digits)

/-- The text of a number taken apart. -/
def Double.spelling : Double → List Char
  | .nan => "NaN".toList
  | .infinite negative => sign negative ++ "inf".toList
  | .finite negative 0 _ => sign negative ++ ['0']
  | .finite negative m q => sign negative ++ positional (shortest m q).1 (shortest m q).2
where
  /-- The minus sign of a negative number. -/
  sign (negative : Bool) : List Char := if negative then ['-'] else []

/-- The text of a number. -/
def write (x : Float) : String := String.ofList (Double.ofBits x.toBits.toNat).spelling

/-! ### Reading -/

/-- The bits of the double nearest to `d · 10^p`. Exponents so large or small that the number is an
infinity or zero are not computed with. -/
def decimalBits (d : Nat) (p : Int) : Nat :=
  let top : Int := (digitsOf d).length + p
  if d = 0 ∨ top < -330 then 0
  else if 310 < top then infinityBits
  else nearestBits (d * power 10 p) (power 10 (-p))

/-- A text without its sign, and whether the sign is a minus. -/
def unsigned : List Char → Bool × List Char
  | '-' :: s => (true, s)
  | '+' :: s => (false, s)
  | s => (false, s)

/-- The exponent that follows the digits of a number: none, or `e` or `E`, an optional sign and
digits. -/
def exponent? : List Char → Option Int
  | [] => some 0
  | c :: s =>
    let (negative, digits) := unsigned s
    if c.toLower = 'e' ∧ isDigits digits then
      some (if negative then -(digitsValue digits : Int) else digitsValue digits)
    else none

/-- The bits of a number in digits: digits with an optional point, at least one of them, and an
optional exponent. -/
def digitBits? (s : List Char) : Option Nat := do
  let whole := s.takeWhile Char.isDigit
  let rest := s.dropWhile Char.isDigit
  let (fraction, rest) := match rest with
    | '.' :: t => (t.takeWhile Char.isDigit, t.dropWhile Char.isDigit)
    | t => ([], t)
  if whole.isEmpty && fraction.isEmpty then none
  let e ← exponent? rest
  some (decimalBits (digitsValue (whole ++ fraction)) (e - fraction.length))

/-- The bits of a number without sign. -/
def unsignedBits? (s : List Char) : Option Nat :=
  match String.ofList (s.map Char.toLower) with
  | "inf" | "infinity" => some infinityBits
  | "nan" => some nanBits
  | _ => digitBits? s

/-- The number that a text spells, if it spells one. -/
def read? (s : List Char) : Option Float :=
  let (negative, s) := unsigned s
  (unsignedBits? s).map fun bits => Float.ofBits (withSign negative bits).toUInt64

/-- The number that a run of digits spells. -/
def ofDigits (s : List Char) : Float :=
  Float.ofBits (decimalBits (digitsValue s) 0).toUInt64

end Worksheet.Decimal
