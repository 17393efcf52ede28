import Worksheet.Text.Digits

/-! # Columns

Columns are numbered from 1 and named in bijective base 26: `A` is 1, `Z` is 26, `AA` is 27. There
is no zero digit, so the number 0 has no name and the empty name no number. -/

namespace Worksheet.Column

open Worksheet.Text

/-- The letter of a digit; 0 is `A` and 25 is `Z`. -/
def letter (d : Nat) : Char := Char.ofNat ('A'.toNat + d)

/-- The digit of a letter, case ignored; `A` is 1 and `Z` is 26. -/
def digit (c : Char) : Nat := c.toUpper.toNat - 'A'.toNat + 1

/-- The letters of the column `n`. -/
def letters : Nat → List Char
  | 0 => []
  | n + 1 => letters (n / 26) ++ [letter (n % 26)]
termination_by n => n
decreasing_by omega

/-- The name of the column `n`, empty if `n` is 0. -/
def name (n : Nat) : String := String.ofList (letters n)

/-- A nonempty run of the letters `A` to `Z` and `a` to `z`. -/
def isLetters (s : List Char) : Bool := !s.isEmpty && s.all Char.isAlpha

/-- The value of a run of letters in bijective base 26. -/
def value (s : List Char) : Nat := s.foldl (fun n c => 26 * n + digit c) 0

/-- The number with one more letter behind it. The product and the sum both have to fit in a
word. -/
def push? (n : Nat) (c : Char) : Option Nat := (fit? (26 * n)).bind fun m => fit? (m + digit c)

/-- The number of the column with the letters `s`. No number on the way may be too large for a
word. -/
def number? (s : List Char) : Option Nat :=
  if isLetters s then s.foldlM push? 0 else none

theorem isAlpha_of_isLetters {s : List Char} (h : isLetters s = true) : ∀ c ∈ s, c.isAlpha = true :=
  List.all_eq_true.mp (Bool.and_eq_true_iff.mp h).2

theorem value_append_singleton (s : List Char) (c : Char) :
    value (s ++ [c]) = 26 * value s + digit c := by
  simp [value]

theorem push?_eq_fit? (n : Nat) (c : Char) : push? n c = fit? (26 * n + digit c) := by
  unfold push? fit?
  by_cases h : 26 * n < wordSize
  · rw [if_pos h, Option.bind_some]
  · rw [if_neg h, if_neg (by omega), Option.bind_none]

/-- Letters only make a number greater. -/
theorem le_foldl_value (s : List Char) (n : Nat) : n ≤ s.foldl (fun n c => 26 * n + digit c) n := by
  induction s generalizing n with
  | nil => exact Nat.le_refl n
  | cons c s ih =>
    have hstep : n ≤ 26 * n + digit c := by omega
    exact Nat.le_trans hstep (ih _)

/-- Checking the number at every letter is checking the last one. -/
theorem foldlM_push? (s : List Char) {n : Nat} (h : n < wordSize) :
    s.foldlM push? n = fit? (s.foldl (fun n c => 26 * n + digit c) n) := by
  induction s generalizing n with
  | nil => exact (if_pos h).symm
  | cons c s ih =>
    rw [List.foldlM_cons, List.foldl_cons, push?_eq_fit?]
    by_cases hc : 26 * n + digit c < wordSize
    · have hfit : fit? (26 * n + digit c) = some (26 * n + digit c) := if_pos hc
      rw [hfit]
      exact ih hc
    · have hlarge := le_foldl_value s (26 * n + digit c)
      have hfit : fit? (26 * n + digit c) = none := if_neg hc
      have hend : fit? (s.foldl (fun n c => 26 * n + digit c) (26 * n + digit c)) = none :=
        if_neg (by omega)
      rw [hfit, hend]
      rfl

theorem number?_eq_some_iff {s : List Char} {n : Nat} :
    number? s = some n ↔ isLetters s = true ∧ value s = n ∧ n < wordSize := by
  have hfold : s.foldlM push? 0 = fit? (value s) := foldlM_push? s (by decide)
  unfold number?
  rw [hfold]
  split <;> simp_all [fit?_eq_some_iff]

end Worksheet.Column
