import Worksheet.Proofs.Addresses
import Worksheet.Proofs.Layout

/-! # References in formulas

A formula refers to a cell by an address of it, but only by one whose column has a single letter
(`ofReference?_eq_some_iff_ofName?`). The two are read in different ways: a reference by its first
character and the rest, an address by where its letters end. So whatever holds of addresses holds of
references to the first 26 columns, and the columns behind them cannot be referred to. -/

namespace Worksheet

open Position Text

namespace Column

theorem value_singleton (c : Char) : value [c] = digit c := by
  rw [value, List.foldl_cons, List.foldl_nil, Nat.mul_zero, Nat.zero_add]

theorem digit_le {c : Char} (h : c.isAlpha = true) : digit c ≤ 26 := by
  obtain ⟨d, hd, hdigit, -⟩ := exists_digit h
  omega

end Column

namespace Position

/-- **A reference is an address with a single letter.** -/
theorem ofReference?_eq_some_iff_ofName? {reference : String} {p : Position} :
    ofReference? reference.toList = some p ↔
      ofName? reference = some p ∧ (reference.toList.takeWhile Char.isAlpha).length = 1 := by
  rw [ofName?_eq_some_iff]
  constructor
  · intro h
    rcases ht : reference.toList with _ | ⟨c, digits⟩
    · rw [ht] at h
      exact nomatch h
    · rw [ht, ofReference?_eq_some_iff] at h
      obtain ⟨hc, hdigits, hcolumn, hrow, hlt⟩ := h
      have hle := Column.digit_le hc
      have haddress : Address reference [c] digits p :=
        { text := ht, letters := by simp [Column.isLetters, hc], digits := hdigits
          column := (Column.value_singleton c).trans hcolumn, row := hrow
          column_lt := by omega, row_lt := hlt }
      refine ⟨⟨_, _, haddress⟩, ?_⟩
      rw [← ht, haddress.span.1]
      rfl
  · rintro ⟨⟨l, d, haddress⟩, hlength⟩
    rw [haddress.span.1] at hlength
    obtain ⟨c, rfl⟩ := List.length_eq_one_iff.mp hlength
    have hcolumn := haddress.column
    rw [Column.value_singleton] at hcolumn
    rw [haddress.text, List.singleton_append, ofReference?_eq_some_iff]
    exact ⟨haddress.isAlpha c List.mem_cons_self, haddress.digits, hcolumn, haddress.row,
      haddress.row_lt⟩

/-- The name of a position in one of the first columns begins with a single letter. -/
theorem length_letters_name {p : Position} (h : p.column < 26) :
    (p.name.toList.takeWhile Char.isAlpha).length = 1 := by
  have hspan :=
    span_isAlpha (Column.isAlpha_of_mem_letters (p.column + 1)) (isDigits_digitsOf (p.row + 1))
  rw [toList_name, hspan.1, Column.letters_succ, Nat.div_eq_of_lt h, Column.letters]
  rfl

theorem Refers.column_lt {text : String} {p : Position} (h : Refers text p) : p.column < 26 := by
  obtain ⟨c, digits, -, hc, -, hcolumn, -, -⟩ := h
  have hle := Column.digit_le hc
  omega

end Position

namespace Grid

variable {g : Grid}

/-! ### Cells that formulas refer to -/

theorem target?_formula (g : Grid) (reference : String) :
    g.target? ("=" ++ reference) = (ofReference? reference.toList).bind g.cell? := by
  have ht : ("=" ++ reference).toList = '=' :: reference.toList := by rw [String.toList_append]; rfl
  rw [target?, ht]
  rfl

theorem target?_formula_eq_some_iff {reference : String} {c : Cell} :
    g.target? ("=" ++ reference) = some c ↔
      g.cellNamed? reference = some c ∧ (reference.toList.takeWhile Char.isAlpha).length = 1 := by
  simp only [target?_formula, cellNamed?, Option.bind_eq_some_iff, place?_eq_some_iff,
    ofReference?_eq_some_iff_ofName?]
  constructor
  · rintro ⟨p, ⟨hp, hlength⟩, hc⟩
    exact ⟨⟨p, ⟨hp, contains_of_cell? hc⟩, hc⟩, hlength⟩
  · rintro ⟨⟨p, ⟨hp, -⟩, hc⟩, hlength⟩
    exact ⟨p, ⟨hp, hlength⟩, hc⟩

theorem target?_eq_of_alike {reference reference' : String} (h : Alike reference reference') :
    g.target? ("=" ++ reference) = g.target? ("=" ++ reference') := by
  have hcell : g.cellNamed? reference = g.cellNamed? reference' := by
    rw [cellNamed?, cellNamed?, place?, place?, h.ofName?_eq]
  ext1 c
  rw [target?_formula_eq_some_iff, target?_formula_eq_some_iff, hcell, h.length_letters_eq]

/-- **Formulas refer to cells by short addresses.** In every grid a formula refers to the cell that
its body names as an address, if the body begins with exactly one letter, and to none in every other
case. So a formula never refers to a cell behind the first 26 columns; `=` and the name of a cell in
these refers to this cell; and neither the case of the letter nor zeros in front of the row change
what a formula refers to. -/
theorem formulas_refer_by_short_addresses {g : Grid} (hg : g.Reachable) (hr : g.rows < 2 ^ 64) :
    (∀ (reference : String) (c : Cell), g.target? ("=" ++ reference) = some c ↔
      g.cellNamed? reference = some c ∧ (reference.toList.takeWhile Char.isAlpha).length = 1) ∧
    (∀ (text : String) (c : Cell), g.target? text = some c → c.position.column < 26) ∧
    (∀ c ∈ g.cells, c.position.column < 26 → g.target? ("=" ++ c.name) = some c) ∧
    (∀ reference reference' : String, Alike reference reference' →
      g.target? ("=" ++ reference) = g.target? ("=" ++ reference')) := by
  refine ⟨fun _ _ => target?_formula_eq_some_iff, fun text c h => ?_, fun c hc hcolumn => ?_,
    fun _ _ => target?_eq_of_alike⟩
  · obtain ⟨p, hp, hcell⟩ := target?_eq_some_iff.mp h
    obtain ⟨d, hd, hpos⟩ := hg.wellFormed.exists_cell (contains_of_cell? hcell)
    obtain rfl := Option.some.inj (hd.symm.trans hcell)
    exact hpos ▸ hp.column_lt
  · obtain ⟨hin, -⟩ := hg.wellFormed.cell?_position hc
    have hword : Text.wordSize = 2 ^ 64 := rfl
    have hrow : c.position.row + 1 < Text.wordSize := Nat.lt_of_le_of_lt hin.1 hr
    have hnamed := (hg.wellFormed.cellNamed?_name_of_lt hc hrow (by omega)).2
    exact target?_formula_eq_some_iff.mpr ⟨hnamed, length_letters_name hcolumn⟩

/-- The 27th cell of a row is found under its name, but a formula with this name refers to no cell;
one with a small letter and a zero in front of the row does. -/
theorem reference_with_two_letters :
    (empty 1 27).Reachable ∧ (empty 1 27).rows < 2 ^ 64 ∧
      (empty 1 27).cellNamed? "AA1" = some (.blank ⟨0, 26⟩) ∧ (empty 1 27).target? "=AA1" = none ∧
      (empty 1 27).target? "=b01" = some (.blank ⟨0, 1⟩) := by
  have hreach : (empty 1 27).Reachable := ⟨1, 27, [], rfl⟩
  have hr : (empty 1 27).rows < 2 ^ 64 := by decide
  obtain ⟨hiff, -, -, -⟩ := formulas_refer_by_short_addresses hreach hr
  have hfound : ∀ {name : String} {p : Position}, ofName? name = some p → p.Inside 1 27 →
      (empty 1 27).cellNamed? name = some (.blank p) := fun hname hp => by
    have hplace : (empty 1 27).place? _ = some _ := place?_eq_some_iff.mpr ⟨hname, hp⟩
    rw [cellNamed?, hplace]
    exact cell?_empty hp
  refine ⟨hreach, hr, hfound (by decide) (by decide), ?_, (hiff "b01" _).mpr ⟨?_, by decide⟩⟩
  · rw [Option.eq_none_iff_forall_ne_some]
    intro c hc
    exact absurd ((hiff "AA1" c).mp hc).2 (by decide)
  · exact hfound (by decide) (by decide)

end Grid

end Worksheet
