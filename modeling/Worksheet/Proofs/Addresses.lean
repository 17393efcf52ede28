import Mathlib.Data.List.Basic
import Worksheet.Cell
import Worksheet.Proofs.ColumnCodec

/-! # Addresses

A text is an address of a position if it is a run of letters whose value is the column and a run of
digits whose value is the row, both counted from 1 and both numbers of a word (`Address`). This is
what reading an address decides (`ofName?_eq_some_iff`).

An address is the name of its position but for the case of the letters and for zeros in front of the
digits (`Address.toList_name_eq`). So two addresses are those of one position exactly if they differ
in nothing else (`Alike`). -/

namespace Worksheet

open Worksheet.Text

/-! ### Zeros in front of digits -/

namespace Text

/-- A text without the zeros it begins with. -/
def dropZeros (d : List Char) : List Char := d.dropWhile (· = '0')

theorem exists_zeros_append (d : List Char) : ∃ k, d = List.replicate k '0' ++ dropZeros d := by
  have hzeros : d.takeWhile (· = '0') = List.replicate (d.takeWhile (· = '0')).length '0' := by
    refine List.eq_replicate_iff.mpr ⟨rfl, fun c hc => ?_⟩
    simpa using List.mem_takeWhile_imp hc
  refine ⟨(d.takeWhile (· = '0')).length, ?_⟩
  rw [← hzeros]
  exact List.takeWhile_append_dropWhile.symm

theorem digitsValue_zeros_append (k : ℕ) (d : List Char) :
    digitsValue (List.replicate k '0' ++ d) = digitsValue d := by
  rw [digitsValue, Nat.ofDigitChars_append, Nat.ofDigitChars_replicate_zero, Nat.mul_zero]
  rfl

theorem isDigits_zeros_append (k : ℕ) {d : List Char} (hd : d ≠ []) :
    isDigits (List.replicate k '0' ++ d) = isDigits d := by
  have hzero : Char.isDigit '0' = true := by decide
  obtain ⟨c, d, rfl⟩ := List.exists_cons_of_ne_nil hd
  rcases k with _ | k <;> simp [isDigits, hzero, List.replicate_succ]

theorem digitsValue_concat (d : List Char) (c : Char) :
    digitsValue (d ++ [c]) = 10 * digitsValue d + (c.toNat - 48) := by
  rw [digitsValue, Nat.ofDigitChars_append, Nat.ofDigitChars_cons]
  rfl

theorem toDigits_of_isDigit {c : Char} (h : c.isDigit = true) :
    c.toNat - 48 < 10 ∧ Nat.toDigits 10 (c.toNat - 48) = [c] := by
  obtain ⟨hl, hu⟩ : 48 ≤ c.toNat ∧ c.toNat ≤ 57 := Char.isDigit_iff_toNat.mp h
  have hlt : c.toNat - 48 < 10 := by omega
  have hchar : Nat.digitChar (c.toNat - 48) = c := by
    rw [← Char.toNat_inj, Nat.toNat_digitChar_of_lt_ten hlt, Nat.add_comm]
    exact Nat.sub_add_cancel hl
  exact ⟨hlt, by rw [Nat.toDigits_of_lt_base hlt, hchar]⟩

/-- **A digit run is the spelling of its value**, if it does not begin with a zero. -/
theorem digitsOf_digitsValue {d : List Char} (hd : ∀ c ∈ d, c.isDigit = true) (hne : d ≠ [])
    (hhead : d.head? ≠ some '0') : digitsOf (digitsValue d) = d := by
  induction d using List.reverseRecOn with
  | nil => exact absurd rfl hne
  | append_singleton d c ih =>
    obtain ⟨hlt, hlast⟩ := toDigits_of_isDigit (hd c (by simp))
    rw [digitsValue_concat]
    by_cases hnil : d = []
    · subst hnil
      simpa [digitsOf, digitsValue] using hlast
    · rw [List.head?_append_of_ne_nil d hnil] at hhead
      have hrun := ih (fun a ha => hd a (List.mem_append_left _ ha)) hnil hhead
      -- a run of value 0 is spelled as a zero, and this one does not begin with one
      have hpos : 0 < digitsValue d := by
        rcases Nat.eq_zero_or_pos (digitsValue d) with h0 | h0
        · rw [h0] at hrun
          exact absurd (congrArg List.head? hrun.symm) hhead
        · exact h0
      have hsplit := Nat.toDigits_append_toDigits (b := 10) (by decide) hpos hlt
      unfold digitsOf at hrun ⊢
      rw [← hsplit, hrun, hlast]

/-- A digit run that is not zero is the spelling of its value behind zeros. -/
theorem digitsOf_eq_dropZeros {d : List Char} (hd : isDigits d = true) (hpos : 0 < digitsValue d) :
    digitsOf (digitsValue d) = dropZeros d := by
  obtain ⟨k, hk⟩ := exists_zeros_append d
  have hvalue : digitsValue d = digitsValue (dropZeros d) := by
    conv_lhs => rw [hk]
    exact digitsValue_zeros_append k _
  rw [hvalue] at hpos ⊢
  refine digitsOf_digitsValue (fun c hc => isDigit_of_isDigits hd c ?_) ?_ ?_
  · exact (List.dropWhile_sublist _).subset hc
  · intro h0
    rw [h0] at hpos
    exact absurd hpos (by decide)
  · intro h0
    have := List.head?_dropWhile_not (fun c => decide (c = '0')) d
    rw [← dropZeros, h0] at this
    simp at this

end Text

/-! ### Letters in either case -/

namespace Column

theorem value_eq_of_map_toUpper {l l' : List Char} (h : l.map Char.toUpper = l'.map Char.toUpper) :
    value l = value l' := by
  have hupper : ∀ s : List Char,
      value s = (s.map Char.toUpper).foldl
        (fun n c => 26 * n + (c.toNat - 'A'.toNat + 1)) 0 := fun s => by
    rw [List.foldl_map]
    rfl
  rw [hupper, h, ← hupper]

theorem isLetters_of_map_toUpper {l l' : List Char} (h : l.map Char.toUpper = l'.map Char.toUpper)
    (hl : isLetters l = true) (hl' : ∀ c ∈ l', c.isAlpha = true) : isLetters l' = true := by
  rcases l' with _ | ⟨c, l'⟩
  · rw [List.map_eq_nil_iff.mp h] at hl
    exact absurd hl (by decide)
  · exact Bool.and_eq_true_iff.mpr ⟨rfl, List.all_eq_true.mpr hl'⟩

theorem value_pos {l : List Char} (h : isLetters l = true) : 0 < value l := by
  rcases Nat.eq_zero_or_pos (value l) with h0 | h0
  · have hnil := letters_value (isAlpha_of_isLetters h)
    rw [h0, letters, eq_comm, List.map_eq_nil_iff] at hnil
    rw [hnil] at h
    exact absurd h (by decide)
  · exact h0

end Column

namespace Position

/-! ### Addresses of a position -/

/-- The text is an address of a position: a nonempty run of letters, in either case, and a nonempty
run of digits, whose values are the column and the row counted from 1, both within a word. -/
structure Address (a : String) (l d : List Char) (p : Position) : Prop where
  text : a.toList = l ++ d
  letters : Column.isLetters l = true
  digits : isDigits d = true
  column : Column.value l = p.column + 1
  row : digitsValue d = p.row + 1
  column_lt : p.column + 1 < 2 ^ 64
  row_lt : p.row + 1 < 2 ^ 64

namespace Address

variable {a : String} {l d : List Char} {p : Position}

theorem isAlpha (h : Address a l d p) : ∀ c ∈ l, c.isAlpha = true :=
  Column.isAlpha_of_isLetters h.letters

theorem span (h : Address a l d p) :
    a.toList.takeWhile Char.isAlpha = l ∧ a.toList.dropWhile Char.isAlpha = d := by
  rw [h.text]
  exact span_isAlpha h.isAlpha h.digits

/-- **The name of a position** is its address in capitals and without zeros in front of the row. -/
theorem toList_name_eq (h : Address a l d p) :
    p.name.toList = l.map Char.toUpper ++ dropZeros d := by
  have hrow : 0 < digitsValue d := h.row ▸ Nat.succ_pos _
  rw [toList_name, ← h.column, ← h.row, Column.letters_value h.isAlpha,
    digitsOf_eq_dropZeros h.digits hrow]

end Address

/-- **What reading an address decides.** -/
theorem ofName?_eq_some_iff {a : String} {p : Position} : ofName? a = some p ↔
    ∃ l d, Address a l d p := by
  constructor
  · intro h
    simp only [ofName?, Option.bind_eq_bind, Option.bind_eq_some_iff] at h
    obtain ⟨column, hc, row, hr, h⟩ := h
    obtain ⟨hletters, rfl, hcolumn⟩ := Column.number?_eq_some_iff.mp hc
    obtain ⟨hdigits, rfl, hrow⟩ := word?_eq_some_iff.mp hr
    have hpos := Column.value_pos hletters
    split at h
    · cases h
    · next h0 =>
      obtain rfl := Option.some.inj h
      have hcolumn' := Nat.sub_add_cancel hpos
      have hrow' := Nat.sub_add_cancel (Nat.pos_of_ne_zero h0)
      exact ⟨_, _, List.takeWhile_append_dropWhile.symm, hletters, hdigits,
        hcolumn'.symm, hrow'.symm,
        hcolumn'.symm ▸ hcolumn, hrow'.symm ▸ hrow⟩
  · rintro ⟨l, d, h⟩
    obtain ⟨hl, hd⟩ := h.span
    have hcolumn : Column.number? l = some (p.column + 1) :=
      Column.number?_eq_some_iff.mpr ⟨h.letters, h.column, h.column_lt⟩
    have hrow : word? d = some (p.row + 1) := word?_eq_some_iff.mpr ⟨h.digits, h.row, h.row_lt⟩
    simp only [ofName?, hl, hd, hcolumn, hrow, Option.bind_eq_bind, Option.bind_some]
    rfl

theorem lt_wordSize_of_ofName? {name : String} {p : Position} (h : ofName? name = some p) :
    p.row + 1 < wordSize ∧ p.column + 1 < wordSize := by
  obtain ⟨l, d, ha⟩ := ofName?_eq_some_iff.mp h
  exact ⟨ha.row_lt, ha.column_lt⟩

/-! ### Addresses of one position -/

/-- The texts differ at most in the case of the letters in front and in the number of zeros behind
these. -/
def Alike (a b : String) : Prop :=
  ∃ (l l' : List Char) (k k' : ℕ) (r : List Char),
    a.toList = l ++ (List.replicate k '0' ++ r) ∧ b.toList = l' ++ (List.replicate k' '0' ++ r) ∧
      (∀ c ∈ l, c.isAlpha = true) ∧ (∀ c ∈ l', c.isAlpha = true) ∧
      l.map Char.toUpper = l'.map Char.toUpper ∧ ∀ c ∈ r.head?, c.isAlpha = false

theorem Alike.symm {a b : String} (h : Alike a b) : Alike b a := by
  obtain ⟨l, l', k, k', r, ha, hb, hl, hl', hupper, hr⟩ := h
  exact ⟨l', l, k', k, r, hb, ha, hl', hl, hupper.symm, hr⟩

theorem isAlpha_head?_zeros (k : ℕ) {r : List Char} (hr : ∀ c ∈ r.head?, c.isAlpha = false) :
    ∀ c ∈ (List.replicate k '0' ++ r).head?, c.isAlpha = false := by
  rcases k with _ | k
  · simpa using hr
  · intro c hc
    obtain rfl : '0' = c := by simpa [List.replicate_succ] using hc
    decide

/-- The letters of texts that are alike are equally many. -/
theorem Alike.length_letters_eq {a b : String} (h : Alike a b) :
    (a.toList.takeWhile Char.isAlpha).length = (b.toList.takeWhile Char.isAlpha).length := by
  obtain ⟨l, l', k, k', r, ha, hb, hl, hl', hupper, hr⟩ := h
  rw [ha, hb, (span_of_head? hl (isAlpha_head?_zeros k hr)).1,
    (span_of_head? hl' (isAlpha_head?_zeros k' hr)).1]
  simpa using congrArg List.length hupper

/-- A text that is alike an address is one of the same position. -/
theorem Alike.ofName?_of_eq_some {a b : String} {p : Position} (h : Alike a b)
    (ha : ofName? a = some p) : ofName? b = some p := by
  obtain ⟨m, d, haddress⟩ := ofName?_eq_some_iff.mp ha
  obtain ⟨l, l', k, k', r, hta, htb, hl, hl', hupper, hr⟩ := h
  obtain ⟨hm, hd⟩ := span_of_head? hl (isAlpha_head?_zeros k hr)
  rw [← hta, haddress.span.1] at hm
  rw [← hta, haddress.span.2] at hd
  subst hm hd
  have hrow := haddress.row
  rw [digitsValue_zeros_append] at hrow
  -- zeros alone would be no row
  have hrest : r ≠ [] := by
    rintro rfl
    exact absurd hrow (by simp [digitsValue])
  have hdigits := haddress.digits
  rw [isDigits_zeros_append k hrest, ← isDigits_zeros_append k' hrest] at hdigits
  refine ofName?_eq_some_iff.mpr ⟨l', _, htb, ?_, hdigits, ?_, ?_, haddress.column_lt,
    haddress.row_lt⟩
  · exact Column.isLetters_of_map_toUpper hupper haddress.letters hl'
  · rw [← Column.value_eq_of_map_toUpper hupper, haddress.column]
  · rw [digitsValue_zeros_append, hrow]

/-- **Texts that are alike name the same position**, or none. -/
theorem Alike.ofName?_eq {a b : String} (h : Alike a b) : ofName? a = ofName? b :=
  Option.ext fun _ => ⟨h.ofName?_of_eq_some, h.symm.ofName?_of_eq_some⟩

/-- Two addresses of one position are alike: each is the name of the position but for case and
zeros. -/
theorem Address.alike {a b : String} {l l' d d' : List Char} {p : Position} (ha : Address a l d p)
    (hb : Address b l' d' p) : Alike a b := by
  obtain ⟨k, hk⟩ := exists_zeros_append d
  obtain ⟨k', hk'⟩ := exists_zeros_append d'
  have hletters : l.map Char.toUpper = l'.map Char.toUpper := by
    rw [← Column.letters_value ha.isAlpha, ← Column.letters_value hb.isAlpha, ha.column, hb.column]
  have hdigits : dropZeros d = dropZeros d' := by
    have hname := ha.toList_name_eq.symm.trans hb.toList_name_eq
    rw [hletters] at hname
    exact List.append_cancel_left hname
  refine ⟨l, l', k, k', dropZeros d, ?_, ?_, ha.isAlpha, hb.isAlpha, hletters, fun c hc => ?_⟩
  · rw [← hk, ha.text]
  · rw [hdigits, ← hk', hb.text]
  · have hmem := (List.dropWhile_sublist _).subset (List.mem_of_mem_head? hc)
    exact not_isAlpha_of_isDigit (isDigit_of_isDigits ha.digits c hmem)

/-- **Addresses and positions.** A text is read as an address of a position exactly if it is one:
letters with the column for their value, digits with the row, both counted from 1 and within a word.
Every other text is none. The name of the position is the address in capitals and without zeros in
front of the row. A position whose two numbers are words is read back from its name. And two
addresses are those of one position exactly if they differ in nothing but the case of their letters
and the zeros in front of their digits. -/
theorem addresses_of_positions :
    (∀ (a : String) (p : Position), ofName? a = some p ↔ ∃ l d, Address a l d p) ∧
    (∀ a : String, ofName? a = none ↔ ∀ l d p, ¬ Address a l d p) ∧
    (∀ (a : String) (l d : List Char) (p : Position), Address a l d p →
      (Cell.blank p).name = String.ofList (l.map Char.toUpper ++ dropZeros d)) ∧
    (∀ p : Position, p.row < 2 ^ 64 - 1 → p.column < 2 ^ 64 - 1 →
    ofName? (Cell.blank p).name = some p) ∧
    (∀ (a b : String) (p : Position), ofName? a = some p → (ofName? b = some p ↔ Alike a b)) := by
  refine ⟨fun a p => ofName?_eq_some_iff, fun a => ?_, fun a l d p h => ?_, fun p hr hc => ?_,
    fun a b p ha => ?_⟩
  · rw [Option.eq_none_iff_forall_ne_some]
    exact ⟨fun h l d p ha => h p (ofName?_eq_some_iff.mpr ⟨l, d, ha⟩), fun h p hp => by
      obtain ⟨l, d, ha⟩ := ofName?_eq_some_iff.mp hp
      exact h l d p ha⟩
  · rw [← h.toList_name_eq, String.ofList_toList]
    rfl
  · have hword : wordSize = 2 ^ 64 := rfl
    have hrow : p.row + 1 < wordSize := by omega
    have hcolumn : p.column + 1 < wordSize := by omega
    exact ofName?_name hrow hcolumn
  · constructor
    · intro hb
      obtain ⟨l, d, hla⟩ := ofName?_eq_some_iff.mp ha
      obtain ⟨l', d', hlb⟩ := ofName?_eq_some_iff.mp hb
      exact hla.alike hlb
    · intro h
      exact h.ofName?_of_eq_some ha

/-- An address in both cases with zeros in front of its row, the first row and the first number that
is no row any more. -/
theorem address_with_zeros :
    ofName? "aB007" = some ⟨6, 27⟩ ∧ (Cell.blank ⟨6, 27⟩).name = "AB7" ∧ Alike "aB007" "Ab7" ∧
      ofName? "A18446744073709551615" = some ⟨2 ^ 64 - 2, 0⟩ ∧
        ofName? "A18446744073709551616" = none := by
  obtain ⟨hsome, -, hname, -, halike⟩ := addresses_of_positions
  have haddress : Address "aB007" ['a', 'B'] ['0', '0', '7'] ⟨6, 27⟩ := by constructor <;> decide
  have hread : ofName? "aB007" = some ⟨6, 27⟩ := (hsome _ _).mpr ⟨_, _, haddress⟩
  have hother : ofName? "Ab7" = some ⟨6, 27⟩ := by decide
  refine ⟨hread, ?_, (halike _ _ _ hread).mp hother, by decide, by decide⟩
  rw [hname _ _ _ _ haddress]
  decide

end Position

end Worksheet
