import Mathlib.Data.List.Induction
import Worksheet.Proofs.Naming

/-! # Columns and runs of letters

Every number from 1 has one run of capital letters for its name, and every run of letters, in either
case, has one number for its value. The two are inverse to each other: `value_letters` reads a name
back, and `letters_value` writes a run of letters again, in capitals. `number_of_letters` says so
for the numbers of a word, where a run of letters has a number exactly if its value, taken without
bound, is one of these.

The name is written from its last letter on. `wordLetters` does this in word arithmetic, where a
difference below zero would wrap around; `Turn` says that there is none. -/

namespace Worksheet.Column

open Worksheet.Text

/-! ### Letters and digits -/

theorem isUpper_letter {d : ℕ} (h : d < 26) : (letter d).isUpper = true := by
  interval_cases d <;> decide

theorem toNat_toUpper {c : Char} (h : c.isAlpha = true) :
    65 ≤ c.toUpper.toNat ∧ c.toUpper.toNat ≤ 90 := by
  have hascii : ∀ n < 123, (Char.ofNat n).isAlpha = true →
      65 ≤ (Char.ofNat n).toUpper.toNat ∧ (Char.ofNat n).toUpper.toNat ≤ 90 := by decide
  have hlt : c.toNat < 123 := by
    rw [isAlpha_iff_toNat] at h
    omega
  have hc := hascii c.toNat hlt
  rw [Char.ofNat_toNat] at hc
  exact hc h

/-- The letter of a digit is the capital of every letter with this digit. -/
theorem exists_digit {c : Char} (h : c.isAlpha = true) :
    ∃ d, d < 26 ∧ digit c = d + 1 ∧ letter d = c.toUpper := by
  obtain ⟨hl, hu⟩ := toNat_toUpper h
  refine ⟨c.toUpper.toNat - 65, by omega, rfl, ?_⟩
  have hA : 'A'.toNat = 65 := rfl
  rw [letter, hA, Nat.add_sub_cancel' hl, Char.ofNat_toNat]

theorem isUpper_of_mem_letters (n : ℕ) : ∀ c ∈ letters n, c.isUpper = true := by
  induction n using Nat.strongRecOn with
  | ind n ih =>
    rcases n with _ | n
    · simp [letters]
    · intro c hc
      rw [letters_succ, List.mem_append, List.mem_singleton] at hc
      rcases hc with hc | rfl
      · exact ih (n / 26) (by omega) c hc
      · exact isUpper_letter (Nat.mod_lt _ (by decide))

/-- **The letters of the value of a run of letters** are the run in capitals. -/
theorem letters_value {s : List Char} (h : ∀ c ∈ s, c.isAlpha = true) :
    letters (value s) = s.map Char.toUpper := by
  induction s using List.reverseRecOn with
  | nil => simp [value, letters]
  | append_singleton s c ih =>
    have hs := ih fun a ha => h a (List.mem_append_left _ ha)
    obtain ⟨d, hd, hdigit, hletter⟩ := exists_digit (h c (by simp))
    have hdiv : (26 * value s + d) / 26 = value s := by omega
    have hmod : (26 * value s + d) % 26 = d := by omega
    rw [value_append_singleton, hdigit, ← Nat.add_assoc, letters_succ, hdiv, hmod, hs, hletter]
    simp

theorem isLetters_toList {s : String} :
    isLetters s.toList = true ↔ s ≠ "" ∧ ∀ c ∈ s.toList, c.isAlpha = true := by
  simp [isLetters, List.all_eq_true]

theorem toUpper_eq_ofList (s : String) : s.toUpper = String.ofList (s.toList.map Char.toUpper) := by
  rw [String.toUpper, ← String.toList_inj, String.toList_map, String.toList_ofList]

/-! ### Taking letters in word arithmetic -/

/-- The digit of the last letter of a column, counted from 0. -/
def lastDigit (w : UInt64) : UInt64 := (w - 1) % 26

/-- What is left of a column for the letters before the last one. -/
def init (w : UInt64) : UInt64 := (w - lastDigit w) / 26

/-- What one turn does: no difference in it is below zero, it leaves a smaller number, and the
letters of the column are those of the number left and the one taken. -/
structure Turn (w : UInt64) : Prop where
  one_le : 1 ≤ w
  digit_le : lastDigit w ≤ w
  init_lt : init w < w
  letters : letters w.toNat = letters (init w).toNat ++ [letter (lastDigit w).toNat]

theorem turn {w : UInt64} (h : w ≠ 0) : Turn w := by
  have hpos : 1 ≤ w.toNat := Nat.one_le_iff_ne_zero.mpr fun h0 => h (UInt64.toNat_inj.mp h0)
  have hone : 1 ≤ w := UInt64.le_iff_toNat_le.mpr hpos
  have hdigit : (lastDigit w).toNat = (w.toNat - 1) % 26 := by
    rw [lastDigit, UInt64.toNat_mod, UInt64.toNat_sub_of_le _ _ hone]
    rfl
  have hle : lastDigit w ≤ w := UInt64.le_iff_toNat_le.mpr (by omega)
  have hinit : (init w).toNat = (w.toNat - (w.toNat - 1) % 26) / 26 := by
    rw [init, UInt64.toNat_div, UInt64.toNat_sub_of_le _ _ hle, hdigit]
    rfl
  refine ⟨hone, hle, UInt64.lt_iff_toNat_lt.mpr (by omega), ?_⟩
  obtain ⟨n, hn⟩ := Nat.exists_eq_add_of_le' hpos
  have hrest : (init w).toNat = n / 26 := by rw [hinit, hn]; omega
  have hlast : (lastDigit w).toNat = n % 26 := by rw [hdigit, hn]; rfl
  rw [hrest, hlast, hn, letters_succ]

/-- The letters of a column in front of those taken already. -/
def wordLetters (w : UInt64) (taken : List Char) : List Char :=
  if _h : w = 0 then taken else wordLetters (init w) (letter (lastDigit w).toNat :: taken)
termination_by w.toNat
decreasing_by exact UInt64.lt_iff_toNat_lt.mp (turn _h).init_lt

/-- **Word arithmetic takes the letters of a column.** -/
theorem wordLetters_eq (w : UInt64) (taken : List Char) :
    wordLetters w taken = letters w.toNat ++ taken := by
  fun_induction wordLetters w taken with
  | case1 taken => simp [letters]
  | case2 w taken h ih => rw [ih, (turn h).letters, List.append_assoc, List.singleton_append]

/-! ### Names and numbers -/

/-- **Names and numbers of columns.** A number from 1 that fits in a word has a name, of capital
letters only, and is found again by it. A text has a number exactly if it is a nonempty run of
letters whose value, taken without bound, fits in a word; this value is the number, and its name is
the text in capitals. All other texts have none: the empty one, those with another character, and
those whose value is too large, wherever on the way it gets so. In word arithmetic the name is taken
from its end, letter by letter, and no turn goes below zero. -/
theorem number_of_letters :
    (∀ n, 1 ≤ n → n < 2 ^ 64 →
      name n ≠ "" ∧ (∀ c ∈ (name n).toList, c.isUpper = true) ∧ number? (name n).toList = some n) ∧
    (∀ (s : String) (n : ℕ), number? s.toList = some n ↔
      s ≠ "" ∧ (∀ c ∈ s.toList, c.isAlpha = true) ∧ value s.toList = n ∧ n < 2 ^ 64) ∧
    (∀ (s : String) (n : ℕ), number? s.toList = some n → name n = s.toUpper) ∧
    (∀ s : String, number? s.toList = none ↔
      s = "" ∨ (∃ c ∈ s.toList, c.isAlpha = false) ∨ 2 ^ 64 ≤ value s.toList) ∧
    (∀ w : UInt64, (name w.toNat).toList = wordLetters w [] ∧ (w ≠ 0 → Turn w)) := by
  have hsome : ∀ (s : String) (n : ℕ), number? s.toList = some n ↔
      s ≠ "" ∧ (∀ c ∈ s.toList, c.isAlpha = true) ∧ value s.toList = n ∧ n < 2 ^ 64 := fun s n => by
    rw [number?_eq_some_iff, isLetters_toList, and_assoc]
    rfl
  refine ⟨fun n h hn => ?_, hsome, fun s n h => ?_, fun s => ?_, fun w => ⟨?_, turn⟩⟩
  · have hname : (name n).toList = letters n := String.toList_ofList
    refine ⟨fun he => letters_ne_nil h ?_, ?_, ?_⟩
    · rw [← hname, he]
      rfl
    · rw [hname]
      exact isUpper_of_mem_letters n
    · rw [hname]
      exact number?_letters h hn
  · obtain ⟨-, hs, rfl, -⟩ := (hsome s n).mp h
    rw [name, letters_value hs, toUpper_eq_ofList]
  · rw [Option.eq_none_iff_forall_ne_some]
    constructor
    · intro h
      by_contra hn
      simp only [not_or, not_exists, not_and, not_le, Bool.not_eq_false] at hn
      exact h _ ((hsome s _).mpr ⟨hn.1, hn.2.1, rfl, hn.2.2⟩)
    · rintro h n hn
      obtain ⟨hne, hs, rfl, hlt⟩ := (hsome s n).mp hn
      rcases h with rfl | ⟨c, hc, hca⟩ | h
      · exact hne rfl
      · exact absurd ((hs c hc).symm.trans hca) (by decide)
      · exact absurd hlt (not_lt.mpr h)
  · rw [wordLetters_eq, List.append_nil]
    exact String.toList_ofList

/-- The last column of a word, and the two ways in which a run of letters becomes too large: with
the sum at its last letter, and with a product before. -/
theorem number_of_last_column :
    name (2 ^ 64 - 1) = "GKGWBYLWRXTLPO" ∧ number? "GKGWBYLWRXTLPO".toList = some (2 ^ 64 - 1) ∧
      number? "gkgwbylwrxtlpp".toList = none ∧ number? "gkgwbylwrxtlpoa".toList = none := by
  obtain ⟨hname, -, hcapitals, hnone, -⟩ := number_of_letters
  have hnumber : number? "gkgwbylwrxtlpo".toList = some (2 ^ 64 - 1) := by decide
  have hlast : name (2 ^ 64 - 1) = "GKGWBYLWRXTLPO" := by
    rw [hcapitals _ _ hnumber, toUpper_eq_ofList]
    decide
  refine ⟨hlast, ?_, (hnone _).mpr (Or.inr (Or.inr (by decide))),
    (hnone _).mpr (Or.inr (Or.inr (by decide)))⟩
  have := (hname (2 ^ 64 - 1) (by decide) (by decide)).2.2
  rwa [hlast] at this

end Worksheet.Column
