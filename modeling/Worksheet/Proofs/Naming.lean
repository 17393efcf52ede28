import Mathlib.Data.List.TakeWhile
import Mathlib.Tactic.IntervalCases
import Worksheet.Position

/-! # Names of positions read back

A position whose two numbers fit in a word is found again under its name (`ofName?_name`). The
column's letters are read by `value_letters`, and the row's digits begin where the letters end
(`span_isAlpha`).

`Refers text p` says in words which texts are formulas and what they refer to: `=`, one letter for
the column, and the row counted from 1. It is what `ofReference?` decides
(`ofReference?_eq_some_iff`), and a text refers to one position at most (`Refers.eq`). -/

namespace Worksheet

open Worksheet.Text

/-! ### Letters of a column -/

namespace Column

theorem letters_succ (n : ℕ) : letters (n + 1) = letters (n / 26) ++ [letter (n % 26)] := by
  rw [letters]

theorem digit_letter {d : ℕ} (h : d < 26) : digit (letter d) = d + 1 := by
  interval_cases d <;> decide

theorem isAlpha_letter {d : ℕ} (h : d < 26) : (letter d).isAlpha = true := by
  interval_cases d <;> decide

theorem isAlpha_of_mem_letters (n : ℕ) : ∀ c ∈ letters n, c.isAlpha = true := by
  induction n using Nat.strongRecOn with
  | ind n ih =>
    rcases n with _ | n
    · simp [letters]
    · intro c hc
      rw [letters_succ, List.mem_append, List.mem_singleton] at hc
      rcases hc with hc | rfl
      · exact ih (n / 26) (by omega) c hc
      · exact isAlpha_letter (Nat.mod_lt _ (by decide))

/-- **The letters of a column have its number for their value.** -/
theorem value_letters (n : ℕ) : value (letters n) = n := by
  induction n using Nat.strongRecOn with
  | ind n ih =>
    rcases n with _ | n
    · simp [letters, value]
    · rw [letters_succ, value_append_singleton, ih (n / 26) (by omega),
        digit_letter (Nat.mod_lt _ (by decide))]
      omega

theorem letters_ne_nil {n : ℕ} (h : 0 < n) : letters n ≠ [] := by
  obtain ⟨m, rfl⟩ := Nat.exists_eq_add_one_of_ne_zero h.ne'
  rw [letters_succ]
  simp

theorem number?_letters {n : ℕ} (h : 0 < n) (hn : n < wordSize) : number? (letters n) = some n := by
  refine number?_eq_some_iff.mpr ⟨?_, value_letters n, hn⟩
  simpa [isLetters, letters_ne_nil h] using isAlpha_of_mem_letters n

end Column

/-! ### Digits of a row -/

theorem isAlpha_iff_toNat {c : Char} :
    c.isAlpha = true ↔ (65 ≤ c.toNat ∧ c.toNat ≤ 90) ∨ (97 ≤ c.toNat ∧ c.toNat ≤ 122) := by
  have hc : c.isAlpha = (decide (c.val ≥ 'A'.val ∧ c.val ≤ 'Z'.val) ||
      decide (c.val ≥ 'a'.val) && decide (c.val ≤ 'z'.val)) := rfl
  rw [hc]
  simp [UInt32.le_iff_toNat_le]

theorem not_isAlpha_of_isDigit {c : Char} (h : c.isDigit = true) : c.isAlpha = false := by
  have hd : 48 ≤ c.toNat ∧ c.toNat ≤ 57 := Char.isDigit_iff_toNat.mp h
  have hn : ¬ c.isAlpha = true := by rw [isAlpha_iff_toNat]; omega
  exact Bool.eq_false_iff.mpr hn

theorem isDigit_of_mem_digitsOf {n : ℕ} : ∀ c ∈ digitsOf n, c.isDigit = true :=
  isDigit_of_isDigits (isDigits_digitsOf n)

theorem word?_digitsOf {n : ℕ} (h : n < wordSize) : word? (digitsOf n) = some n :=
  word?_eq_some_iff.mpr ⟨isDigits_digitsOf n, digitsValue_digitsOf n, h⟩

namespace Position

/-! ### Names -/

theorem toList_name (p : Position) :
    p.name.toList = Column.letters (p.column + 1) ++ digitsOf (p.row + 1) := by
  simp [name]

/-- A name is made of letters and digits. -/
theorem isAlphanum_of_mem_name {p : Position} {c : Char} (hc : c ∈ p.name.toList) :
    c.isAlphanum = true := by
  rw [toList_name, List.mem_append] at hc
  unfold Char.isAlphanum
  rcases hc with hc | hc
  · rw [Column.isAlpha_of_mem_letters _ c hc]; rfl
  · rw [isDigit_of_mem_digitsOf c hc, Bool.or_true]

/-- Letters end where something else begins. -/
theorem span_of_head? {l r : List Char} (hl : ∀ c ∈ l, c.isAlpha = true)
    (hr : ∀ c ∈ r.head?, c.isAlpha = false) :
    (l ++ r).takeWhile Char.isAlpha = l ∧ (l ++ r).dropWhile Char.isAlpha = r := by
  rw [List.takeWhile_append_of_pos hl, List.dropWhile_append_of_pos hl]
  rcases r with _ | ⟨c, r⟩
  · simp
  · simp [hr c rfl]

/-- Letters in front of digits end where these begin. -/
theorem span_isAlpha {l d : List Char} (hl : ∀ c ∈ l, c.isAlpha = true) (hd : isDigits d = true) :
    (l ++ d).takeWhile Char.isAlpha = l ∧ (l ++ d).dropWhile Char.isAlpha = d := by
  refine span_of_head? hl fun c hc => not_isAlpha_of_isDigit ?_
  exact isDigit_of_isDigits hd c (List.mem_of_mem_head? hc)

/-- **A position is found under its name**, if its numbers fit in a word. -/
theorem ofName?_name {p : Position} (hr : p.row + 1 < wordSize) (hc : p.column + 1 < wordSize) :
    ofName? p.name = some p := by
  obtain ⟨hl, hd⟩ :=
    span_isAlpha (Column.isAlpha_of_mem_letters (p.column + 1)) (isDigits_digitsOf (p.row + 1))
  simp only [ofName?, toList_name, hl, hd, Column.number?_letters (Nat.succ_pos _) hc,
    word?_digitsOf hr,
    Option.bind_eq_bind, Option.bind_some]
  rfl

/-- A position in one of the first columns has one letter in its name. -/
theorem name_of_lt (row : ℕ) {column : ℕ} (h : column < 26) :
    name ⟨row, column⟩ = String.ofList [Column.letter column] ++ toString (row + 1) := by
  have hletters : Column.letters (column + 1) = [Column.letter column] := by
    rw [Column.letters_succ, Nat.div_eq_of_lt h, Nat.mod_eq_of_lt h, Column.letters]
    rfl
  rw [name, hletters, String.ofList_append]
  rfl

theorem name_injective {p q : Position} (h : p.name = q.name) : p = q := by
  have hspan := fun p : Position =>
    span_isAlpha (Column.isAlpha_of_mem_letters (p.column + 1)) (isDigits_digitsOf (p.row + 1))
  obtain ⟨hl, hd⟩ := hspan p
  obtain ⟨hl', hd'⟩ := hspan q
  rw [← toList_name, h, toList_name, hl'] at hl
  rw [← toList_name, h, toList_name, hd'] at hd
  have hcolumn : p.column + 1 = q.column + 1 := by
    rw [← Column.value_letters (p.column + 1), ← hl, Column.value_letters]
  have hrow : p.row + 1 = q.row + 1 := by
    rw [← digitsValue_digitsOf (p.row + 1), ← hd, digitsValue_digitsOf]
  exact congrArg₂ Position.mk (Nat.succ.inj hrow) (Nat.succ.inj hcolumn)

/-! ### References -/

/-- The text is a formula that refers to a position: `=`, one letter for the column, and a row
number from 1 that fits in a word. -/
def Refers (text : String) (p : Position) : Prop :=
  ∃ (c : Char) (digits : List Char), text.toList = '=' :: c :: digits ∧ c.isAlpha = true ∧
    isDigits digits = true ∧ Column.digit c = p.column + 1 ∧ digitsValue digits = p.row + 1 ∧
    p.row + 1 < wordSize

theorem Refers.eq {text : String} {p q : Position} (hp : Refers text p) (hq : Refers text q) :
    p = q := by
  obtain ⟨c, ds, h, -, -, hc, hr, -⟩ := hp
  obtain ⟨c', ds', h', -, -, hc', hr', -⟩ := hq
  rw [h] at h'
  simp only [List.cons.injEq, true_and] at h'
  obtain ⟨rfl, rfl⟩ := h'
  rcases p with ⟨r, k⟩
  rcases q with ⟨r', k'⟩
  simp only [Position.mk.injEq]
  simp only at hc hr hc' hr'
  omega

theorem ofReference?_eq_some_iff {c : Char} {digits : List Char} {p : Position} :
    ofReference? (c :: digits) = some p ↔ c.isAlpha = true ∧ isDigits digits = true ∧
      Column.digit c = p.column + 1 ∧ digitsValue digits = p.row + 1 ∧ p.row + 1 < wordSize := by
  have hd : Column.digit c = (Column.digit c - 1) + 1 := by unfold Column.digit; omega
  rcases p with ⟨r, k⟩
  simp only [ofReference?, Option.bind_eq_bind, Option.bind_eq_some_iff, word?_eq_some_iff]
  constructor
  · rintro ⟨row, ⟨hds, hv, hlt⟩, h⟩
    split at h
    · next hg =>
      simp only [Option.some.injEq, Position.mk.injEq] at h
      simp only [Bool.and_eq_true, decide_eq_true_eq] at hg
      exact ⟨hg.1, hds, by omega, by omega, by omega⟩
    · cases h
  · rintro ⟨ha, hds, hc, hv, hlt⟩
    refine ⟨r + 1, ⟨hds, hv, hlt⟩, ?_⟩
    rw [if_pos (by simp [ha])]
    simp only [Option.some.injEq, Position.mk.injEq]
    omega

end Position

end Worksheet
