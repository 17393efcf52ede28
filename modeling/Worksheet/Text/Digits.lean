/-! # Runs of decimal digits

Digit runs are read without bound and compared with the size of a word afterwards, so that a run of
any length, leading zeros included, is read or refused by its value alone. -/

namespace Worksheet.Text

/-- The number of values of a 64-bit word. -/
def wordSize : Nat := UInt64.size

/-- A nonempty run of the digits `0` to `9`. -/
def isDigits (s : List Char) : Bool := !s.isEmpty && s.all Char.isDigit

/-- The decimal value of a digit run. -/
def digitsValue (s : List Char) : Nat := Nat.ofDigitChars 10 s 0

/-- The decimal spelling of a number, without leading zeros. -/
def digitsOf (n : Nat) : List Char := Nat.toDigits 10 n

/-- The number, if it fits in a word. -/
def fit? (n : Nat) : Option Nat := if n < wordSize then some n else none

/-- The value of a digit run that fits in a word. -/
def word? (s : List Char) : Option Nat := if isDigits s then fit? (digitsValue s) else none

theorem fit?_eq_some_iff {n m : Nat} : fit? n = some m ↔ n = m ∧ m < wordSize := by
  unfold fit?
  split
  · next h => simpa using fun e => e ▸ h
  · next h => simpa using fun e => e ▸ Nat.le_of_not_lt h

theorem word?_eq_some_iff {s : List Char} {n : Nat} :
    word? s = some n ↔ isDigits s = true ∧ digitsValue s = n ∧ n < wordSize := by
  unfold word?
  split <;> simp_all [fit?_eq_some_iff]

theorem isDigit_of_isDigits {s : List Char} (h : isDigits s = true) : ∀ c ∈ s, c.isDigit = true :=
  List.all_eq_true.mp (Bool.and_eq_true_iff.mp h).2

theorem isDigits_digitsOf (n : Nat) : isDigits (digitsOf n) = true := by
  have h : ∀ c ∈ Nat.toDigits 10 n, c.isDigit = true := fun c hc =>
    Nat.isDigit_of_mem_toDigits (by decide) (by decide) hc
  have hn : Nat.toDigits 10 n ≠ [] := Nat.toDigits_ne_nil
  simp [isDigits, digitsOf, List.all_eq_true, hn]
  exact h

theorem digitsValue_digitsOf (n : Nat) : digitsValue (digitsOf n) = n :=
  Nat.ofDigitChars_ten_toDigits

end Worksheet.Text
