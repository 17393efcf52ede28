/-! # White space

The characters with the property `White_Space`, and trimming. Trimming is done on both ends and
takes nothing else away: `exists_eq_append_trim` splits a text into blanks, what is kept, and
blanks. -/

namespace Worksheet.Text

/-- The ranges of the property `White_Space`, ends included. -/
def blankRanges : List (Nat × Nat) :=
  [(0x0009, 0x000D), (0x0020, 0x0020), (0x0085, 0x0085), (0x00A0, 0x00A0), (0x1680, 0x1680),
   (0x2000, 0x200A), (0x2028, 0x2029), (0x202F, 0x202F), (0x205F, 0x205F), (0x3000, 0x3000)]

/-- A white space character. -/
def isBlank (c : Char) : Bool := blankRanges.any fun r => r.1 ≤ c.toNat && c.toNat ≤ r.2

/-- The text without the white space it begins with. -/
def trimLeft (s : List Char) : List Char := s.dropWhile isBlank

/-- The text without the white space it ends with. -/
def trimRight (s : List Char) : List Char := (s.reverse.dropWhile isBlank).reverse

/-- The text without the white space at its two ends. -/
def trim (s : List Char) : List Char := trimRight (trimLeft s)

theorem exists_eq_append_trimLeft (s : List Char) :
    ∃ l, s = l ++ trimLeft s ∧ ∀ c ∈ l, isBlank c := by
  refine ⟨s.takeWhile isBlank, (List.takeWhile_append_dropWhile).symm, fun c hc => ?_⟩
  exact List.all_eq_true.mp List.all_takeWhile c hc

theorem exists_eq_trimRight_append (s : List Char) :
    ∃ r, s = trimRight s ++ r ∧ ∀ c ∈ r, isBlank c := by
  obtain ⟨l, hl, hb⟩ := exists_eq_append_trimLeft s.reverse
  refine ⟨l.reverse, ?_, fun c hc => hb c (List.mem_reverse.mp hc)⟩
  have := congrArg List.reverse hl
  simpa [trimLeft, trimRight] using this

theorem exists_eq_append_trim (s : List Char) :
    ∃ l r, s = l ++ trim s ++ r ∧ (∀ c ∈ l, isBlank c) ∧ ∀ c ∈ r, isBlank c := by
  obtain ⟨l, hl, hbl⟩ := exists_eq_append_trimLeft s
  obtain ⟨r, hr, hbr⟩ := exists_eq_trimRight_append (trimLeft s)
  refine ⟨l, r, ?_, hbl, hbr⟩
  rw [List.append_assoc]
  exact hl.trans (congrArg (l ++ ·) hr)

end Worksheet.Text
