import Mathlib.Order.Basic
import Worksheet.Grid
import Worksheet.Proofs.Naming

/-! # The state of a grid

A grid is seen through two tables: the text and the value at each position (`textAt`, `valueAt`),
both empty outside the grid. `WellFormed` is what every grid keeps: the cells stand in their places,
and a cell without text has no value.

`Means rows columns S text value` says what value a text has in a grid of the given size whose texts
are `S`. `Entered g g' p text` is all there is to know of entering a text: the texts change at one
position, the value there is settled by the new texts if the text is new, and nothing else changes
(`exists_entered`). -/

namespace Worksheet

open Position

/-- The position lies inside a grid of the given size. -/
def Position.Inside (rows columns : ℕ) (p : Position) : Prop := p.row < rows ∧ p.column < columns

instance (rows columns : ℕ) (p : Position) : Decidable (p.Inside rows columns) :=
  inferInstanceAs (Decidable (_ ∧ _))

/-- **The value of a text** in a grid of the given size with the texts `S`: a text that is no
formula, the empty one among them, is its own value; a formula has the text of the cell it refers
to, or is its own value if there is no such cell. -/
inductive Means (rows columns : ℕ) (S : Position → String) (text : String) : String → Prop where
  | plain : text.toList.head? ≠ some '=' → Means rows columns S text text
  | reference {p : Position} : Refers text p → p.Inside rows columns →
      Means rows columns S text (S p)
  | unresolved : text.toList.head? = some '=' → (∀ p, p.Inside rows columns → ¬ Refers text p) →
      Means rows columns S text text

theorem Position.Refers.head?_eq {text : String} {p : Position} (h : Refers text p) :
    text.toList.head? = some '=' := by
  obtain ⟨c, digits, he, -⟩ := h
  rw [he]; rfl

namespace Means

variable {rows columns : ℕ} {S : Position → String} {text v w : String}

/-- A text has one value. -/
theorem eq (hv : Means rows columns S text v) (hw : Means rows columns S text w) : v = w := by
  rcases hv with hp | ⟨hr, hi⟩ | ⟨-, hn⟩
  · rcases hw with - | ⟨hr, -⟩ | -
    · rfl
    · exact absurd hr.head?_eq hp
    · rfl
  · rcases hw with hp | ⟨hr', -⟩ | ⟨-, hn⟩
    · exact absurd hr.head?_eq hp
    · rw [hr.eq hr']
    · exact absurd hr (hn _ hi)
  · rcases hw with - | ⟨hr, hi⟩ | -
    · rfl
    · exact absurd hr (hn _ hi)
    · rfl

/-- A value is told by the text of the cell referred to. -/
theorem congr_of_refers {S' : Position → String} (hv : Means rows columns S text v)
    (hS : ∀ p, Refers text p → p.Inside rows columns → S p = S' p) :
    Means rows columns S' text v := by
  rcases hv with hp | ⟨hr, hi⟩ | ⟨he, hn⟩
  · exact .plain hp
  · rw [hS _ hr hi]
    exact .reference hr hi
  · exact .unresolved he hn

theorem congr {S' : Position → String} (hv : Means rows columns S text v)
    (hS : ∀ p, p.Inside rows columns → S p = S' p) : Means rows columns S' text v :=
  hv.congr_of_refers fun p _ hp => hS p hp

theorem eq_empty (hv : Means rows columns S "" v) : v = "" :=
  hv.eq (.plain (by simp))

end Means

namespace Grid

/-! ### Places of cells -/

/-- The text at a position, empty outside the grid. -/
def textAt (g : Grid) (p : Position) : String := (g.cell? p).elim "" (·.text)

/-- The value at a position, empty outside the grid. -/
def valueAt (g : Grid) (p : Position) : String := (g.cell? p).elim "" (·.value)

/-- What every grid keeps: each position inside it has a cell, which knows its position, and a cell
without text has no value. -/
structure WellFormed (g : Grid) : Prop where
  size : g.cells.size = g.rows * g.columns
  position : ∀ p, g.Contains p → ∀ c, g.cells[g.index p]? = some c → c.position = p
  blank : ∀ c ∈ g.cells, c.text = "" → c.value = ""

variable {g : Grid} {p q : Position}

theorem index_lt (hp : g.Contains p) : g.index p < g.rows * g.columns :=
  calc g.index p < p.row * g.columns + g.columns := Nat.add_lt_add_left hp.2 _
    _ = (p.row + 1) * g.columns := (Nat.succ_mul _ _).symm
    _ ≤ g.rows * g.columns := Nat.mul_le_mul_right _ hp.1

theorem index_div (hp : g.Contains p) : g.index p / g.columns = p.row := by
  have hc : 0 < g.columns := Nat.zero_lt_of_lt hp.2
  rw [index, Nat.mul_comm, Nat.mul_add_div hc, Nat.div_eq_of_lt hp.2, Nat.add_zero]

theorem index_mod (hp : g.Contains p) : g.index p % g.columns = p.column := by
  rw [index, Nat.mul_comm, Nat.mul_add_mod, Nat.mod_eq_of_lt hp.2]

theorem index_inj (hp : g.Contains p) (hq : g.Contains q) (h : g.index p = g.index q) : p = q := by
  have hr : p.row = q.row := by rw [← index_div hp, ← index_div hq, h]
  have hc : p.column = q.column := by rw [← index_mod hp, ← index_mod hq, h]
  show Position.mk p.row p.column = Position.mk q.row q.column
  rw [hr, hc]

theorem cell?_of_not_contains (hp : ¬ g.Contains p) : g.cell? p = none := if_neg hp

theorem cell?_of_contains (hp : g.Contains p) : g.cell? p = g.cells[g.index p]? := if_pos hp

theorem contains_of_cell? {c : Cell} (hc : g.cell? p = some c) : g.Contains p := by
  by_contra hp
  rw [cell?_of_not_contains hp] at hc
  exact nomatch hc

theorem textAt_of_not_contains (hp : ¬ g.Contains p) : g.textAt p = "" := by
  rw [textAt, cell?_of_not_contains hp]
  rfl

/-- Two grids have the same texts everywhere if they have them in a range of rows and columns in
which both lie. -/
theorem textAt_eq_of_forall_lt {h : Grid} (rows columns : ℕ) (hr : g.rows ≤ rows ∧ h.rows ≤ rows)
    (hc : g.columns ≤ columns ∧ h.columns ≤ columns)
    (ht : ∀ row < rows, ∀ column < columns, g.textAt ⟨row, column⟩ = h.textAt ⟨row, column⟩)
    (p : Position) :
    g.textAt p = h.textAt p := by
  by_cases hp : p.Inside rows columns
  · exact ht p.row hp.1 p.column hp.2
  · have hg' : ¬ g.Contains p := fun hn => hp ⟨hn.1.trans_le hr.1, hn.2.trans_le hc.1⟩
    have hh' : ¬ h.Contains p := fun hn => hp ⟨hn.1.trans_le hr.2, hn.2.trans_le hc.2⟩
    rw [textAt_of_not_contains hg', textAt_of_not_contains hh']

namespace WellFormed

theorem exists_cell (hg : g.WellFormed) (hp : g.Contains p) :
    ∃ c, g.cell? p = some c ∧ c.position = p := by
  have hi : g.index p < g.cells.size := by rw [hg.size]; exact index_lt hp
  refine ⟨g.cells[g.index p], ?_, hg.position p hp _ (Array.getElem?_eq_getElem hi)⟩
  rw [cell?_of_contains hp, Array.getElem?_eq_getElem hi]

theorem isSome_cell?_iff (hg : g.WellFormed) : (g.cell? p).isSome = true ↔ g.Contains p := by
  constructor
  · intro h
    obtain ⟨c, hc⟩ := Option.isSome_iff_exists.mp h
    exact contains_of_cell? hc
  · intro hp
    obtain ⟨c, hc, -⟩ := hg.exists_cell hp
    rw [hc]
    rfl

theorem cell?_eq (hg : g.WellFormed) (hp : g.Contains p) :
    g.cell? p = some ⟨p, g.textAt p, g.valueAt p⟩ := by
  obtain ⟨c, hc, rfl⟩ := hg.exists_cell hp
  simp [textAt, valueAt, hc]

theorem valueAt_eq_empty (hg : g.WellFormed) (ht : g.textAt p = "") : g.valueAt p = "" := by
  by_cases hp : g.Contains p
  · have hc := hg.cell?_eq hp
    rw [cell?_of_contains hp] at hc
    exact hg.blank _ (Array.mem_of_getElem? hc) ht
  · simp [valueAt, cell?_of_not_contains hp]

/-- A cell is told by its text and its value. -/
theorem cell?_congr {g' : Grid} (hg : g.WellFormed) (hg' : g'.WellFormed) (hr : g'.rows = g.rows)
    (hc : g'.columns = g.columns) (ht : g'.textAt p = g.textAt p)
    (hv : g'.valueAt p = g.valueAt p) :
    g'.cell? p = g.cell? p := by
  by_cases hp : g.Contains p
  · have hp' : g'.Contains p := by rwa [Contains, hr, hc]
    rw [hg.cell?_eq hp, hg'.cell?_eq hp', ht, hv]
  · have hp' : ¬ g'.Contains p := by rwa [Contains, hr, hc]
    rw [cell?_of_not_contains hp, cell?_of_not_contains hp']

end WellFormed

theorem wellFormed_empty (rows columns : ℕ) : (empty rows columns).WellFormed where
  size := Array.size_ofFn
  position p hp c hc := by
    have hi := index_lt hp
    have hr := index_div hp
    have hk := index_mod hp
    simp only [empty] at hc hi hr hk
    rw [Array.getElem?_ofFn, dif_pos hi] at hc
    obtain rfl := Option.some.inj hc
    exact congrArg₂ Position.mk hr hk
  blank c hc _ := by
    obtain ⟨i, rfl⟩ := Array.mem_ofFn.mp hc
    rfl

theorem cell?_empty {rows columns : ℕ} (hp : p.Inside rows columns) :
    (empty rows columns).cell? p = some (.blank p) := by
  have hp' : (empty rows columns).Contains p := hp
  obtain ⟨c, hc, rfl⟩ := (wellFormed_empty rows columns).exists_cell hp'
  rw [cell?_of_contains hp'] at hc
  obtain ⟨i, rfl⟩ := Array.mem_ofFn.mp (Array.mem_of_getElem? hc)
  rw [cell?_of_contains hp', hc]
  rfl

theorem textAt_empty (rows columns : ℕ) (p : Position) : (empty rows columns).textAt p = "" := by
  by_cases hp : p.Inside rows columns
  · simp [textAt, cell?_empty hp, Cell.blank]
  · exact textAt_of_not_contains (g := empty rows columns) hp

/-- **A grid is its size and its two tables.** -/
theorem ext_tables {g' : Grid} (hg : g.WellFormed) (hg' : g'.WellFormed) (hr : g.rows = g'.rows)
    (hc : g.columns = g'.columns) (ht : ∀ p, g.Contains p → g.textAt p = g'.textAt p)
    (hv : ∀ p, g.Contains p → g.valueAt p = g'.valueAt p) : g = g' := by
  have hcells : g.cells = g'.cells := by
    refine Array.ext (by rw [hg.size, hg'.size, hr, hc]) fun i hi hi' => ?_
    have hpos : 0 < g.columns := by
      rcases Nat.eq_zero_or_pos g.columns with h0 | h0
      · rw [hg.size, h0] at hi; omega
      · exact h0
    set p : Position := ⟨i / g.columns, i % g.columns⟩ with hp
    have hin : g.Contains p :=
      ⟨Nat.div_lt_of_lt_mul (by rw [Nat.mul_comm, ← hg.size]; exact hi), Nat.mod_lt _ hpos⟩
    have hin' : g'.Contains p := by
      refine ⟨?_, ?_⟩
      · rw [← hr]; exact hin.1
      · rw [← hc]; exact hin.2
    have hidx : g.index p = i := by rw [index, hp, Nat.mul_comm]; exact Nat.div_add_mod _ _
    have hidx' : g'.index p = i := by rw [← hidx, index, index, hc]
    have h := hg.cell?_eq hin
    have h' := hg'.cell?_eq hin'
    rw [← ht p hin, ← hv p hin, ← h, cell?_of_contains hin, cell?_of_contains hin', hidx, hidx',
      Array.getElem?_eq_getElem hi, Array.getElem?_eq_getElem hi'] at h'
    exact (Option.some.inj h').symm
  show Grid.mk g.rows g.columns g.cells = Grid.mk g'.rows g'.columns g'.cells
  rw [hr, hc, hcells]

/-! ### Entering a text -/

theorem cell?_modify (hp : g.Contains p) (f : Cell → Cell) (q : Position) :
    (g.modify p f).cell? q = if q = p then (g.cell? q).map f else g.cell? q := by
  by_cases hq : g.Contains q
  · have hq' : (g.modify p f).Contains q := hq
    rw [cell?_of_contains hq', cell?_of_contains hq]
    show (g.cells.modify (g.index p) f)[g.index q]? = _
    rw [Array.getElem?_modify]
    by_cases h : q = p
    · rw [if_pos h, if_pos (by rw [h])]
    · rw [if_neg h, if_neg fun e => h (index_inj hq hp e.symm)]
  · have hq' : ¬ (g.modify p f).Contains q := hq
    rw [cell?_of_not_contains hq', cell?_of_not_contains hq]
    split <;> rfl

theorem modify_modify (g : Grid) (p : Position) (f f' : Cell → Cell) :
    (g.modify p f).modify p f' = g.modify p (f' ∘ f) := by
  have h : (g.cells.modify (g.index p) f).modify (g.index p) f' =
      g.cells.modify (g.index p) (f' ∘ f) := by
    refine Array.ext (by simp) fun i _ _ => ?_
    simp only [Array.getElem_modify]
    split <;> rfl
  exact congrArg (Grid.mk g.rows g.columns) h

theorem textAt_modify (hg : g.WellFormed) (hp : g.Contains p) (f : Cell → Cell) (q : Position) :
    (g.modify p f).textAt q = if q = p then (f ⟨p, g.textAt p, g.valueAt p⟩).text
      else g.textAt q := by
  unfold textAt
  rw [cell?_modify hp]
  split
  · next h => subst h; rw [hg.cell?_eq hp]; rfl
  · rfl

theorem valueAt_modify (hg : g.WellFormed) (hp : g.Contains p) (f : Cell → Cell) (q : Position) :
    (g.modify p f).valueAt q = if q = p then (f ⟨p, g.textAt p, g.valueAt p⟩).value
      else g.valueAt q := by
  unfold valueAt
  rw [cell?_modify hp]
  split
  · next h => subst h; rw [hg.cell?_eq hp]; rfl
  · rfl

theorem target?_eq_some_iff {text : String} {c : Cell} :
    g.target? text = some c ↔ ∃ p, Refers text p ∧ g.cell? p = some c := by
  unfold target?
  split
  · next reference hl =>
    rw [Option.bind_eq_some_iff]
    constructor
    · rintro ⟨p, hp, hc⟩
      rcases reference with _ | ⟨d, digits⟩
      · exact absurd hp (by simp [ofReference?])
      · exact ⟨p, ⟨d, digits, hl, ofReference?_eq_some_iff.mp hp⟩, hc⟩
    · rintro ⟨p, ⟨d, digits, he, h⟩, hc⟩
      rw [hl] at he
      obtain rfl := (List.cons.inj he).2
      exact ⟨p, ofReference?_eq_some_iff.mpr h, hc⟩
  · next hl =>
    constructor
    · intro h
      exact absurd h (by simp)
    · rintro ⟨p, ⟨d, digits, he, -⟩, -⟩
      exact absurd he (hl _)

/-- **The value settled for a text is the one it has.** -/
theorem means_valueOf (hcells : ∀ p, g.Contains p → (g.cell? p).isSome = true) (text : String) :
    Means g.rows g.columns g.textAt text (g.valueOf text) := by
  unfold valueOf
  rcases ht : g.target? text with _ | c
  · by_cases hf : text.toList.head? = some '='
    · refine .unresolved hf fun p hp hr => ?_
      obtain ⟨c, hc⟩ := Option.isSome_iff_exists.mp (hcells p hp)
      have hsome := target?_eq_some_iff.mpr ⟨p, hr, hc⟩
      exact absurd (ht.symm.trans hsome) (by simp)
    · exact .plain hf
  · obtain ⟨p, hr, hc⟩ := target?_eq_some_iff.mp ht
    have hp : g.Contains p := contains_of_cell? hc
    have he : c.text = g.textAt p := by simp [textAt, hc]
    simp only [he]
    exact .reference hr hp

/-- What entering a text at a position makes of a grid. -/
structure Entered (g g' : Grid) (p : Position) (text : String) : Prop where
  rows : g'.rows = g.rows
  columns : g'.columns = g.columns
  wellFormed : g'.WellFormed
  textAt : ∀ q, g'.textAt q = if q = p then text else g.textAt q
  frame : ∀ q, q ≠ p ∨ g.textAt p = text → g'.valueAt q = g.valueAt q
  settled : g.textAt p ≠ text → Means g.rows g.columns g'.textAt text (g'.valueAt p)

/-- Entering a text at one position leaves the cells at all others as they are. -/
theorem Entered.cell?_eq {g' : Grid} {text : String} (hg : g.WellFormed) (he : Entered g g' p text)
    (hq : q ≠ p) : g'.cell? q = g.cell? q :=
  hg.cell?_congr he.wellFormed he.rows he.columns (by rw [he.textAt, if_neg hq])
    (he.frame q (Or.inl hq))

theorem wellFormed_modify (hg : g.WellFormed) (hp : g.Contains p) {f : Cell → Cell}
    (hf : ∀ c, (f c).position = c.position)
    (hb : (f ⟨p, g.textAt p, g.valueAt p⟩).text = "" →
    (f ⟨p, g.textAt p, g.valueAt p⟩).value = "") :
    (g.modify p f).WellFormed where
  size := by simpa [modify] using hg.size
  position q hq c hc := by
    have hc' : (g.modify p f).cell? q = some c := by rw [cell?_of_contains hq]; exact hc
    rw [cell?_modify hp] at hc'
    split at hc'
    · obtain ⟨d, hd, rfl⟩ := Option.map_eq_some_iff.mp hc'
      obtain ⟨d', hd', hpos⟩ := hg.exists_cell hq
      obtain rfl := Option.some.inj (hd.symm.trans hd')
      rw [hf, hpos]
    · obtain ⟨d, hd, hpos⟩ := hg.exists_cell hq
      obtain rfl := Option.some.inj (hd.symm.trans hc')
      exact hpos
  blank c hc ht := by
    obtain ⟨i, hi, rfl⟩ := Array.mem_iff_getElem.mp hc
    simp only [modify, Array.getElem_modify] at ht ⊢
    simp only [modify, Array.size_modify] at hi
    have hcell := hg.cell?_eq hp
    rw [cell?_of_contains hp] at hcell
    split at ht
    · next h =>
      subst h
      rw [if_pos rfl]
      rw [Array.getElem?_eq_getElem hi] at hcell
      rw [Option.some.inj hcell] at ht ⊢
      exact hb ht
    · next h =>
      rw [if_neg h]
      exact hg.blank _ (Array.getElem_mem hi) ht

theorem place?_eq_some_iff {name : String} : g.place? name = some p ↔ ofName? name = some p ∧
    g.Contains p := by
  simp [place?, Option.filter_eq_some_iff]

theorem place?_of_ofName? {name : String} (h : ofName? name = some p) :
    g.place? name = if g.Contains p then some p else none := by
  rw [place?, h]
  simp [Option.filter]

/-- Where a name leads is told by the size of the grid. -/
theorem place?_congr {g' : Grid} (hr : g'.rows = g.rows) (hc : g'.columns = g.columns)
    (name : String) : g'.place? name = g.place? name := by
  ext1 p
  rw [place?_eq_some_iff, place?_eq_some_iff, Contains, Contains, hr, hc]

theorem setText_of_not_contains (hp : ¬ g.Contains p) (text : String) :
    g.setText p text = .error (.invalidReference p.describe) := by
  unfold setText
  rw [cell?_of_not_contains hp]

/-- The refusal of an address, which denotes no position or one outside the grid. -/
def refusal (name : String) : Error := .invalidReference ((ofName? name).elim name describe)

theorem setTextNamed_of_place?_eq_none {name : String} (h : g.place? name = none) (text : String) :
    g.setTextNamed name text = .error (refusal name) := by
  rcases hname : ofName? name with _ | p
  · simp only [setTextNamed, refusal, hname, Option.elim_none]
  · have hp : ¬ g.Contains p := fun hp => by
      rw [place?_eq_some_iff.mpr ⟨hname, hp⟩] at h
      exact nomatch h
    simp only [setTextNamed, refusal, hname, setText_of_not_contains hp, Option.elim_some]

theorem setTextNamed_of_place?_eq_some {name : String} (h : g.place? name = some p)
    (text : String) : g.setTextNamed name text = g.setText p text := by
  simp only [setTextNamed, (place?_eq_some_iff.mp h).1]

/-- The value settled for a text that is entered at a position, where it stands already. -/
def newValue (g : Grid) (p : Position) (text : String) : String :=
  (g.modify p fun c => { c with text := text }).valueOf text

/-- The grid with a text entered at a position and the value settled for it. -/
def withText (g : Grid) (p : Position) (text : String) : Grid :=
  g.modify p fun c => { c with text := text, value := g.newValue p text }

theorem setText_of_textAt_eq (hg : g.WellFormed) (hp : g.Contains p) {text : String}
    (h : g.textAt p = text) : g.setText p text = .ok (g, none) := by
  unfold setText
  rw [hg.cell?_eq hp]
  show (if g.textAt p = text then _ else _) = _
  rw [if_pos h]

theorem setText_of_textAt_ne (hg : g.WellFormed) (hp : g.Contains p) {text : String}
    (h : g.textAt p ≠ text) :
    g.setText p text =
      .ok (g.withText p text, if text = "" then none else some ⟨p, g.newValue p text⟩) := by
  have hmod : (g.modify p fun c => { c with text := text }).modify p
      (fun c => { c with value := g.newValue p text }) = g.withText p text := modify_modify g p _ _
  rw [← hmod]
  unfold setText
  rw [hg.cell?_eq hp]
  show (if g.textAt p = text then _ else _) = _
  rw [if_neg h]
  rfl

theorem means_newValue (hg : g.WellFormed) (hp : g.Contains p) (text : String) :
    Means g.rows g.columns (g.withText p text).textAt text (g.newValue p text) := by
  have hcells : ∀ q, g.Contains q →
      ((g.modify p fun c => { c with text := text }).cell? q).isSome = true := by
    intro q hq
    obtain ⟨c, hc, -⟩ := hg.exists_cell hq
    rw [cell?_modify hp, hc]
    split <;> rfl
  have htexts : ∀ q, (g.modify p fun c => { c with text := text }).textAt q =
      (g.withText p text).textAt q := by
    intro q
    rw [withText, textAt_modify hg hp, textAt_modify hg hp]
  exact (means_valueOf hcells text).congr fun q _ => htexts q

theorem valueAt_withText (hg : g.WellFormed) (hp : g.Contains p) (text : String) (q : Position) :
    (g.withText p text).valueAt q = if q = p then g.newValue p text else g.valueAt q :=
  valueAt_modify hg hp _ q

theorem entered_self (hg : g.WellFormed) {text : String} (h : g.textAt p = text) :
    Entered g g p text where
  rows := rfl
  columns := rfl
  wellFormed := hg
  textAt q := by
    split
    · next hq => rw [hq, h]
    · rfl
  frame _ _ := rfl
  settled hne := absurd h hne

theorem entered_withText (hg : g.WellFormed) (hp : g.Contains p) {text : String}
    (h : g.textAt p ≠ text) : Entered g (g.withText p text) p text where
  rows := rfl
  columns := rfl
  wellFormed := by
    refine wellFormed_modify hg hp (fun _ => rfl) ?_
    intro ht
    have ht : text = "" := ht
    have hm := means_newValue hg hp text
    subst ht
    exact hm.eq_empty
  textAt q := textAt_modify hg hp _ q
  frame q hq := by rw [valueAt_withText hg hp, if_neg (hq.resolve_right h)]
  settled _ := by
    rw [valueAt_withText hg hp, if_pos rfl]
    exact means_newValue hg hp text

/-- **All there is to know of entering a text inside the grid.** -/
theorem exists_entered (hg : g.WellFormed) (hp : g.Contains p) (text : String) :
    ∃ g' change, g.setText p text = .ok (g', change) ∧ Entered g g' p text ∧
      change = if g.textAt p = text ∨ text = "" then none else some ⟨p, g'.valueAt p⟩ := by
  by_cases h : g.textAt p = text
  · refine ⟨g, none, setText_of_textAt_eq hg hp h, entered_self hg h, ?_⟩
    rw [if_pos (Or.inl h)]
  · refine ⟨g.withText p text, _, setText_of_textAt_ne hg hp h, entered_withText hg hp h, ?_⟩
    rw [valueAt_withText hg hp, if_pos rfl]
    simp only [h, false_or]

/-! ### Clearing -/

theorem cell?_clear (g : Grid) (p : Position) : g.clear.cell? p = (g.cell? p).map Cell.clear := by
  by_cases hp : g.Contains p
  · have hp' : g.clear.Contains p := hp
    rw [cell?_of_contains hp', cell?_of_contains hp]
    exact Array.getElem?_map
  · have hp' : ¬ g.clear.Contains p := hp
    rw [cell?_of_not_contains hp', cell?_of_not_contains hp]
    rfl

theorem textAt_clear (g : Grid) (p : Position) : g.clear.textAt p = "" := by
  unfold textAt
  rw [cell?_clear]
  rcases g.cell? p with _ | c <;> simp

theorem wellFormed_clear (hg : g.WellFormed) : g.clear.WellFormed where
  size := by simpa [clear] using hg.size
  position p hp c hc := by
    have hc' : g.clear.cell? p = some c := by rw [cell?_of_contains hp]; exact hc
    obtain ⟨d, hd, hpos⟩ := hg.exists_cell (p := p) hp
    rw [cell?_clear, hd] at hc'
    obtain rfl := Option.some.inj hc'
    simpa using hpos
  blank c hc _ := by
    obtain ⟨d, hd, rfl⟩ := Array.mem_map.mp hc
    unfold Cell.clear
    split
    · next h => exact hg.blank d hd h
    · rfl

end Grid

end Worksheet
