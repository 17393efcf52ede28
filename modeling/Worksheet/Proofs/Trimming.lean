import Mathlib.Data.List.Basic
import Worksheet.Text.Blank

/-! # Blanks around a text

Trimming sees nothing of the blanks around a text (`trim_pad`), leaves nothing exactly when there is
nothing but blanks (`trim_eq_nil_iff`), and leaves a text alone whose two ends are no blanks
(`trim_eq_self`). -/

namespace Worksheet.Text

/-- The text is white space. -/
def Blank (s : List Char) : Prop := ∀ c ∈ s, isBlank c = true

variable {s l m r : List Char}

theorem blank_nil : Blank [] := fun _ h => absurd h List.not_mem_nil

theorem Blank.append (hl : Blank l) (hr : Blank r) : Blank (l ++ r) := by
  intro c hc
  rcases List.mem_append.mp hc with h | h
  · exact hl c h
  · exact hr c h

theorem trimLeft_append (hl : Blank l) : trimLeft (l ++ s) = trimLeft s :=
  List.dropWhile_append_of_pos hl

theorem trimRight_append (hr : Blank r) : trimRight (s ++ r) = trimRight s := by
  have h : ∀ c ∈ r.reverse, isBlank c = true := fun c hc => hr c (List.mem_reverse.mp hc)
  unfold trimRight
  rw [List.reverse_append, List.dropWhile_append_of_pos h]

theorem trimLeft_eq_nil (hs : Blank s) : trimLeft s = [] := by
  have := trimLeft_append (s := []) hs
  rwa [List.append_nil] at this

/-- **Blanks around a text are not seen.** -/
theorem trim_pad (hl : Blank l) (hr : Blank r) : trim (l ++ m ++ r) = trim m := by
  unfold trim
  rw [List.append_assoc, trimLeft_append hl]
  by_cases hm : trimLeft m = []
  · have h : trimLeft (m ++ r) = trimLeft r := by
      simp only [trimLeft] at hm ⊢
      rw [List.dropWhile_append, hm]
      rfl
    rw [h, trimLeft_eq_nil hr, hm]
  · have h : trimLeft (m ++ r) = trimLeft m ++ r := by
      simp only [trimLeft] at hm ⊢
      rw [List.dropWhile_append, if_neg (by simpa using hm)]
    rw [h, trimRight_append hr]

theorem trim_trim (s : List Char) : trim (trim s) = trim s := by
  obtain ⟨l, r, h, hl, hr⟩ := exists_eq_append_trim s
  conv_rhs => rw [h, trim_pad hl hr]

theorem trim_eq_nil_iff : trim s = [] ↔ Blank s := by
  constructor
  · intro h
    obtain ⟨l, r, hs, hl, hr⟩ := exists_eq_append_trim s
    rw [hs, h, List.append_nil]
    exact Blank.append hl hr
  · intro h
    unfold trim
    rw [trimLeft_eq_nil h]
    rfl

/-- A text is left alone if neither of its ends is blank. -/
theorem trim_eq_self (hh : ∀ c ∈ s.head?, isBlank c = false)
    (hl : ∀ c ∈ s.getLast?, isBlank c = false) : trim s = s := by
  have hleft : trimLeft s = s := by
    rcases s with _ | ⟨c, s⟩
    · rfl
    · have := hh c rfl
      simp [trimLeft, this]
  have hright : trimRight s = s := by
    rcases List.eq_nil_or_concat s with rfl | ⟨t, c, rfl⟩
    · rfl
    · have := hl c (by simp)
      simp [trimRight, this]
  unfold trim
  rw [hleft, hright]

theorem trim_eq_self_of_forall (h : ∀ c ∈ s, isBlank c = false) : trim s = s :=
  trim_eq_self (fun c hc => h c (List.mem_of_mem_head? hc)) fun c hc =>
    h c (List.mem_of_mem_getLast? hc)

end Worksheet.Text
