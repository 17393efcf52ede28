import Worksheet.Proofs.SavedSheet
import Worksheet.Session

/-! # The screen of a session

The screen follows the notices of the grid, and the grid gives none of a text that has become empty.
What a session keeps nevertheless is `Session.WellFormed`: every cell that has a text is shown with
its value.

`Edited` says what entering a text does to a session, `Filled` what sample content does, and
`Stepped` what any operation does to each cell (`stepped_after`). From these steps
`screen_shows_values` tells for every run which cells are shown with their values: all but those
that an edit has emptied and no operation has painted since (`LeftOver`). -/

namespace Worksheet

open Position

namespace Session

variable {s s' : Session} {p q : Position}

/-- The screen has the size of the grid. -/
structure Fits (s : Session) : Prop where
  rows : s.screen.size = s.grid.rows
  columns : ∀ row ∈ s.screen, row.size = s.grid.columns

theorem Fits.exists_row (hs : s.Fits) (hp : s.grid.Contains p) :
    ∃ row, s.screen[p.row]? = some row ∧ p.column < row.size := by
  have hr : p.row < s.screen.size := by rw [hs.rows]; exact hp.1
  refine ⟨s.screen[p.row], Array.getElem?_eq_getElem hr, ?_⟩
  rw [hs.columns _ (Array.getElem_mem hr)]
  exact hp.2

theorem fits_paint (hs : s.Fits) (p : Position) (value : String) : (s.paint p value).Fits where
  rows := Array.size_modify.trans hs.rows
  columns row hrow := by
    obtain ⟨i, hi, rfl⟩ := Array.mem_iff_getElem.mp hrow
    simp only [paint, Array.size_modify, Array.getElem_modify] at hi ⊢
    have hsize := hs.columns _ (Array.getElem_mem hi)
    split
    · rw [Array.size_modify]; exact hsize
    · exact hsize

/-- **Painting inside the grid** changes one value on the screen. -/
theorem shown_paint (hs : s.Fits) (hp : s.grid.Contains p) (value : String) (q : Position) :
    (s.paint p value).shown q = if q = p then value else s.shown q := by
  obtain ⟨row, hrow, hc⟩ := hs.exists_row hp
  unfold shown paint
  simp only [Array.getElem?_modify]
  by_cases hr : p.row = q.row
  · rw [if_pos hr, ← hr, hrow]
    by_cases hcol : p.column = q.column
    · have hq : q = p := by rcases p with ⟨r, k⟩; rcases q with ⟨r', k'⟩; simp_all
      rw [if_pos hq, hq]
      simp [Array.getElem_modify, hc]
    · have hq : q ≠ p := fun h => hcol (by rw [h])
      rw [if_neg hq]
      simp [Array.getElem?_modify, hcol]
  · have hq : q ≠ p := fun h => hr (by rw [h])
    rw [if_neg hr, if_neg hq]

/-- **A screen painted anew shows the values of the grid**, and nothing outside it. -/
theorem shown_refresh (s : Session) (p : Position) : s.refresh.shown p = s.grid.valueAt p := by
  unfold shown refresh screenOf Grid.valueAt
  rw [Array.getElem?_ofFn]
  by_cases hr : p.row < s.grid.rows
  · rw [dif_pos hr, Option.bind_some, Array.getElem?_ofFn]
    by_cases hc : p.column < s.grid.columns
    · rw [dif_pos hc]; rfl
    · rw [dif_neg hc, Grid.cell?_of_not_contains fun h => hc h.2]; rfl
  · rw [dif_neg hr, Grid.cell?_of_not_contains fun h => hr h.1]; rfl

theorem fits_refresh (s : Session) : s.refresh.Fits where
  rows := Array.size_ofFn
  columns row hrow := by
    obtain ⟨i, rfl⟩ := Array.mem_ofFn.mp hrow
    exact Array.size_ofFn

theorem fits_loaded (s : Session) (result : Except StorageError (LoadReport × String)) :
    (s.loaded result).Fits := by
  rcases result with e | ⟨report, file⟩ <;> exact fits_refresh _

theorem shown_loaded (s : Session) (result : Except StorageError (LoadReport × String))
    (p : Position) : (s.loaded result).shown p = s.grid.valueAt p := by
  rcases result with e | ⟨report, file⟩ <;> exact shown_refresh _ p

/-! ### Editing -/

/-- What every session keeps: a well-formed grid, a screen of its size, and every cell that has a
text shown with its value. -/
structure WellFormed (s : Session) : Prop where
  grid : s.grid.WellFormed
  fits : s.Fits
  shown : ∀ p, s.grid.textAt p ≠ "" → s.shown p = s.grid.valueAt p

theorem wellFormed_refresh (hg : s.grid.WellFormed) : s.refresh.WellFormed where
  grid := hg
  fits := fits_refresh s
  shown p _ := shown_refresh s p

/-- What entering a text at a position makes of a session: the cell is painted if its text is a new
one and not the empty one. -/
structure Edited (s s' : Session) (p : Position) (text : String) : Prop where
  entered : Grid.Entered s.grid s'.grid p text
  fits : s'.Fits
  shown : ∀ q, s'.shown q =
    if q = p ∧ s.grid.textAt p ≠ text ∧ text ≠ "" then s'.grid.valueAt p else s.shown q

theorem edit_of_place?_eq_none {name : String} (h : s.grid.place? name = none) (text : String) :
    s.edit name text = .error (.invalidReference name) := by
  unfold edit
  rw [h]

theorem edit_of_setText {name text : String} {g' : Grid} {change : Option Change}
    (hplace : s.grid.place? name = some p) (hset : s.grid.setText p text = .ok (g', change)) :
    s.edit name text = .ok (change.elim { s with grid := g' } (notice { s with grid := g' })) := by
  simp [edit, hplace, hset, bind, Except.bind, pure, Except.pure]

theorem grid_elim_notice (s : Session) (change : Option Change) :
    (change.elim s s.notice).grid = s.grid := by
  rcases change with _ | change <;> rfl

theorem exists_edited (hg : s.grid.WellFormed) (hs : s.Fits) {name : String}
    (hplace : s.grid.place? name = some p) (text : String) :
    ∃ s', s.edit name text = .ok s' ∧ Edited s s' p text := by
  obtain ⟨-, hp⟩ := Grid.place?_eq_some_iff.mp hplace
  obtain ⟨g', change, hset, he, hchange⟩ := Grid.exists_entered hg hp text
  have hfits : Fits { s with grid := g' } := ⟨hs.rows.trans he.rows.symm, fun row hrow =>
    (hs.columns row hrow).trans he.columns.symm⟩
  have hp' : g'.Contains p := by rwa [Grid.Contains, he.rows, he.columns]
  refine ⟨_, edit_of_setText hplace hset, ?_⟩
  by_cases hq : s.grid.textAt p = text ∨ text = ""
  · rw [hchange, if_pos hq]
    refine ⟨he, hfits, fun q => ?_⟩
    rw [if_neg fun h => hq.elim h.2.1 h.2.2]
    rfl
  · rw [hchange, if_neg hq]
    refine ⟨he, fits_paint hfits p _, fun q => ?_⟩
    obtain ⟨h1, h2⟩ := not_or.mp hq
    have hpaint := shown_paint hfits hp' (g'.valueAt p) q
    by_cases h : q = p
    · rw [if_pos ⟨h, h1, h2⟩]
      rw [if_pos h] at hpaint
      exact hpaint
    · rw [if_neg fun hn => h hn.1]
      rw [if_neg h] at hpaint
      exact hpaint

theorem Edited.wellFormed {text : String} (hs : s.WellFormed) (he : Edited s s' p text) :
    s'.WellFormed where
  grid := he.entered.wellFormed
  fits := he.fits
  shown q hq := by
    rw [he.shown]
    rw [he.entered.textAt] at hq
    by_cases hqp : q = p
    · subst hqp
      rw [if_pos rfl] at hq
      by_cases ht : s.grid.textAt q = text
      · rw [if_neg fun h => h.2.1 ht, he.entered.frame q (Or.inr ht)]
        exact hs.shown q (ht ▸ hq)
      · rw [if_pos ⟨rfl, ht, hq⟩]
    · rw [if_neg hqp] at hq
      rw [if_neg fun h => hqp h.1, he.entered.frame q (Or.inl hqp)]
      exact hs.shown q hq

theorem clearCell_of_place?_eq_none {name : String} (h : s.grid.place? name = none) :
    s.clearCell name = .error (.invalidReference name) := by
  simp [clearCell, edit_of_place?_eq_none h, bind, Except.bind]

theorem clearCell_of_edit {name : String} (h : s.edit name "" = .ok s') :
    s.clearCell name = .ok ((s'.grid.place? name).elim s' (s'.paint · "")) := by
  simp [clearCell, h, bind, Except.bind, pure, Except.pure]

theorem clearCell_eq {name : String} (hp : s.grid.place? name = some p)
    (he : s.edit name "" = .ok s')
    (h : Edited s s' p "") : s.clearCell name = .ok (s'.paint p "") := by
  have hp' : s'.grid.place? name = some p := by
    obtain ⟨hname, hin⟩ := Grid.place?_eq_some_iff.mp hp
    refine Grid.place?_eq_some_iff.mpr ⟨hname, ?_⟩
    rwa [Grid.Contains, h.entered.rows, h.entered.columns]
  rw [clearCell_of_edit he, hp', Option.elim_some]

/-! ### Sample content -/

theorem place?_letter {g : Grid} {column row : ℕ} (hp : g.Contains ⟨row, column⟩)
    (hr : row + 1 < Text.wordSize) (hc : column < 26) :
    g.place? (String.ofList [Column.letter column] ++ toString (row + 1)) = some ⟨row, column⟩ := by
  refine Grid.place?_eq_some_iff.mpr ⟨?_, hp⟩
  rw [← name_of_lt row hc]
  exact ofName?_name hr (Nat.lt_trans (Nat.succ_lt_succ hc) (by decide))

/-- The text of the sample in column B of a row. -/
def sampleText (row : ℕ) : String := "This is cell B" ++ toString (row + 1)

/-- The formula of the sample in column A of a row. -/
def sampleFormula (row : ℕ) : String := "=B" ++ toString (row + 1)

/-- What sample content in some rows makes of a session: their cells in the first two columns get
their texts, and nothing else changes. -/
structure Filled (s s' : Session) (l : List ℕ) : Prop where
  wellFormed : s'.WellFormed
  rows : s'.grid.rows = s.grid.rows
  columns : s'.grid.columns = s.grid.columns
  text : ∀ row ∈ l, s'.grid.textAt ⟨row, 1⟩ = sampleText row
  formula : ∀ row ∈ l, s'.grid.textAt ⟨row, 0⟩ = sampleFormula row
  frame : ∀ p, p.row ∉ l ∨ 2 ≤ p.column →
    s'.grid.textAt p = s.grid.textAt p ∧ s'.grid.valueAt p = s.grid.valueAt p ∧
      s'.shown p = s.shown p

theorem exists_fillRow (hs : s.WellFormed) {row : ℕ} (hr : row < s.grid.rows)
    (hw : row + 1 < Text.wordSize)
    (hc : 2 ≤ s.grid.columns) : ∃ s', s.fillRow row = .ok s' ∧ Filled s s' [row] := by
  have hB : 1 < s.grid.columns := hc
  obtain ⟨s₁, h₁, he₁⟩ := exists_edited hs.grid hs.fits
    (place?_letter ⟨hr, hB⟩ hw (by decide)) (sampleText row)
  have hin : s₁.grid.Contains ⟨row, 0⟩ := by
    rw [Grid.Contains, he₁.entered.rows, he₁.entered.columns]
    exact ⟨hr, Nat.zero_lt_of_lt hc⟩
  have hs₁ := he₁.wellFormed hs
  obtain ⟨s', h', he'⟩ := exists_edited hs₁.grid hs₁.fits (place?_letter hin hw (by decide))
    (sampleFormula row)
  have hne : ∀ p : Position, p.row ∉ [row] ∨ 2 ≤ p.column → p ≠ ⟨row, 0⟩ ∧ p ≠ ⟨row, 1⟩ := by
    rintro p hp
    refine ⟨?_, ?_⟩ <;> (rintro rfl; simp at hp)
  refine ⟨s', ?_, he'.wellFormed hs₁, he'.entered.rows.trans he₁.entered.rows,
    he'.entered.columns.trans he₁.entered.columns, ?_, ?_, fun p hp => ?_⟩
  · have hb : s.edit ("B" ++ toString (row + 1)) ("This is cell B" ++ toString (row + 1)) =
        .ok s₁ := h₁
    have ha : s₁.edit ("A" ++ toString (row + 1)) ("=B" ++ toString (row + 1)) = .ok s' := h'
    simp only [fillRow, hb, bind, Except.bind, ha]
  · intro r hmem
    obtain rfl := List.mem_singleton.mp hmem
    rw [he'.entered.textAt, if_neg (by simp), he₁.entered.textAt, if_pos rfl]
  · intro r hmem
    obtain rfl := List.mem_singleton.mp hmem
    rw [he'.entered.textAt, if_pos rfl]
  · obtain ⟨h0, h1⟩ := hne p hp
    rw [he'.entered.textAt, if_neg h0, he₁.entered.textAt, if_neg h1,
      he'.entered.frame p (Or.inl h0),
      he₁.entered.frame p (Or.inl h1), he'.shown, if_neg fun h => h0 h.1, he₁.shown,
        if_neg fun h => h1 h.1]
    exact ⟨rfl, rfl, rfl⟩

theorem Filled.trans {s'' : Session} {l l' : List ℕ} (h : Filled s s' l) (h' : Filled s' s'' l') :
    Filled s s'' (l ++ l') where
  wellFormed := h'.wellFormed
  rows := h'.rows.trans h.rows
  columns := h'.columns.trans h.columns
  text row hrow := by
    by_cases hm : row ∈ l'
    · exact h'.text row hm
    · rw [(h'.frame ⟨row, 1⟩ (Or.inl hm)).1]
      exact h.text row ((List.mem_append.mp hrow).resolve_right hm)
  formula row hrow := by
    by_cases hm : row ∈ l'
    · exact h'.formula row hm
    · rw [(h'.frame ⟨row, 0⟩ (Or.inl hm)).1]
      exact h.formula row ((List.mem_append.mp hrow).resolve_right hm)
  frame p hp := by
    have h1 : p.row ∉ l ∨ 2 ≤ p.column := hp.imp_left fun hn hm => hn (List.mem_append_left _ hm)
    have h2 : p.row ∉ l' ∨ 2 ≤ p.column := hp.imp_left fun hn hm => hn (List.mem_append_right _ hm)
    obtain ⟨ht, hv, hs⟩ := h.frame p h1
    obtain ⟨ht', hv', hs'⟩ := h'.frame p h2
    exact ⟨ht'.trans ht, hv'.trans hv, hs'.trans hs⟩

theorem exists_foldlM_fillRow {l : List ℕ} (hs : s.WellFormed) (hr : ∀ row ∈ l, row < s.grid.rows)
    (hw : s.grid.rows < Text.wordSize) (hc : 2 ≤ s.grid.columns) :
    ∃ s', l.foldlM fillRow s = .ok s' ∧ Filled s s' l := by
  induction l generalizing s with
  | nil => exact ⟨s, rfl, hs, rfl, rfl, by simp, by simp, fun _ _ => ⟨rfl, rfl, rfl⟩⟩
  | cons row l ih =>
    have hrow := hr row List.mem_cons_self
    obtain ⟨s₁, h₁, hf₁⟩ := exists_fillRow hs hrow (by omega) hc
    have hr₁ : ∀ r ∈ l, r < s₁.grid.rows :=
      fun r hm => hf₁.rows.symm ▸ hr r (List.mem_cons_of_mem row hm)
    obtain ⟨s', h', hf'⟩ := ih hf₁.wellFormed hr₁ (hf₁.rows.symm ▸ hw) (hf₁.columns.symm ▸ hc)
    refine ⟨s', ?_, hf₁.trans hf'⟩
    rw [List.foldlM_cons, h₁]
    exact h'

/-- **Filling a sheet with sample content** succeeds, if there are two columns for it. -/
theorem exists_fillDemo (hs : s.WellFormed) (hw : s.grid.rows < Text.wordSize)
    (hc : 2 ≤ s.grid.columns) :
    ∃ s', s.fillDemo = .ok s' ∧ Filled s s' (List.range s.grid.rows) := by
  obtain ⟨s', h, hf⟩ := exists_foldlM_fillRow hs (fun _ => List.mem_range.mp) hw hc
  refine ⟨s', ?_, hf⟩
  rw [fillDemo, if_neg (by omega)]
  exact h

/-! ### Operations -/

/-- An operation of a session. -/
inductive Operation where
  | edit (name text : String)
  | clearCell (name : String)
  | clearAll
  | refresh
  | fillDemo
  | saved (result : Except StorageError String)
  | load (folder : Folder) (file : String)

namespace Operation

/-- The outcome of an operation on a session. -/
def outcome (s : Session) : Operation → Except Grid.Error Session
  | edit name text => s.edit name text
  | clearCell name => s.clearCell name
  | clearAll => .ok s.clearAll
  | refresh => .ok s.refresh
  | fillDemo => s.fillDemo
  | saved result => .ok (s.saved result)
  | load folder file => .ok (s.load folder file)

/-- The session after an operation. One that fails leaves it as it is. -/
def after (s : Session) (op : Operation) : Session :=
  match op.outcome s with
  | .ok s' => s'
  | .error _ => s

/-- The operation may change a cell of a grid with the given number of columns, or what is shown for
it. -/
def Touches (columns : ℕ) (p : Position) : Operation → Prop
  | edit name _ | clearCell name => ofName? name = some p
  | clearAll | refresh | load _ _ => True
  | fillDemo => 2 ≤ columns ∧ p.column < 2
  | saved _ => False

/-- The operation leaves a cell shown with its value. Only entering the empty text touches a cell
and does not paint it. -/
def Paints (columns : ℕ) (p : Position) (op : Operation) : Prop :=
  op.Touches columns p ∧ ∀ name, op ≠ edit name ""

/-- What an operation does to the cells of a session: those it paints are shown with their values,
one into which the empty text is entered is shown as before, and those it does not touch stay as
they are. -/
structure Stepped (s : Session) (op : Operation) (s' : Session) : Prop where
  wellFormed : s'.WellFormed
  rows : s'.grid.rows = s.grid.rows
  columns : s'.grid.columns = s.grid.columns
  painted : ∀ p, s.grid.Contains p → op.Paints s.grid.columns p → s'.shown p = s'.grid.valueAt p
  emptied : ∀ p name, s.grid.Contains p → op = edit name "" → ofName? name = some p →
    s'.grid.textAt p = "" ∧ s'.shown p = s.shown p
  frame : ∀ p, s.grid.Contains p → ¬ op.Touches s.grid.columns p →
    s'.grid.valueAt p = s.grid.valueAt p ∧ s'.shown p = s.shown p

theorem stepped_same {op : Operation} (hs : s.WellFormed) (hgrid : s'.grid = s.grid)
    (hscreen : s'.screen = s.screen) (h : ∀ p, s.grid.Contains p → ¬ op.Touches s.grid.columns p) :
    Stepped s op s' := by
  rcases s with ⟨g, screen, file, status⟩
  rcases s' with ⟨g', screen', file', status'⟩
  obtain rfl : g' = g := hgrid
  obtain rfl : screen' = screen := hscreen
  refine ⟨⟨hs.grid, ⟨hs.fits.rows, hs.fits.columns⟩, hs.shown⟩, rfl, rfl, fun p hp hpaint => ?_,
    fun p name hp he hname => ?_, fun _ _ _ => ⟨rfl, rfl⟩⟩
  · exact absurd hpaint.1 (h p hp)
  · subst he
    exact absurd hname (h p hp)

theorem stepped_refresh {op : Operation} (s' : Session) (hg : s'.grid.WellFormed)
    (hr : s'.grid.rows = s.grid.rows) (hc : s'.grid.columns = s.grid.columns)
    (htouch : ∀ p, op.Touches s.grid.columns p)
    (hop : ∀ name, op ≠ edit name "") : Stepped s op s'.refresh where
  wellFormed := wellFormed_refresh hg
  rows := hr
  columns := hc
  painted p _ _ := shown_refresh s' p
  emptied _ name _ he _ := absurd he (hop name)
  frame p _ hn := absurd (htouch p) hn

theorem stepped_edit {name text : String} (hs : s.WellFormed) (hplace : s.grid.place? name = some p)
    (he : Edited s s' p text) : Stepped s (edit name text) s' where
  wellFormed := he.wellFormed hs
  rows := he.entered.rows
  columns := he.entered.columns
  painted q hq hpaint := by
    obtain ⟨hname, -⟩ := Grid.place?_eq_some_iff.mp hplace
    obtain rfl : p = q := Option.some.inj (hname.symm.trans hpaint.1)
    have ht : text ≠ "" := fun h => hpaint.2 name (by rw [h])
    refine (he.wellFormed hs).shown p ?_
    rwa [he.entered.textAt, if_pos rfl]
  emptied q name' hq hop hname := by
    obtain ⟨rfl, rfl⟩ := edit.inj hop
    obtain ⟨hname', -⟩ := Grid.place?_eq_some_iff.mp hplace
    obtain rfl : p = q := Option.some.inj (hname'.symm.trans hname)
    rw [he.entered.textAt, if_pos rfl, he.shown, if_neg fun h => h.2.2 rfl]
    exact ⟨rfl, rfl⟩
  frame q hq hn := by
    obtain ⟨hname, -⟩ := Grid.place?_eq_some_iff.mp hplace
    have hne : q ≠ p := fun h => hn (h ▸ hname)
    rw [he.entered.frame q (Or.inl hne), he.shown, if_neg fun h => hne h.1]
    exact ⟨rfl, rfl⟩

theorem stepped_clearCell {name : String} (hs : s.WellFormed) (hplace : s.grid.place? name = some p)
    (he : Edited s s' p "") : Stepped s (clearCell name) (s'.paint p "") := by
  obtain ⟨hname, hin⟩ := Grid.place?_eq_some_iff.mp hplace
  have hin' : s'.grid.Contains p := by rwa [Grid.Contains, he.entered.rows, he.entered.columns]
  have hs' := he.wellFormed hs
  have ht : s'.grid.textAt p = "" := by rw [he.entered.textAt, if_pos rfl]
  have hshown := shown_paint hs'.fits hin' ""
  refine ⟨⟨hs'.grid, fits_paint hs'.fits p "", fun q hq => ?_⟩, he.entered.rows,
    he.entered.columns, ?_,
    fun _ _ _ h => absurd h (by simp), ?_⟩
  · have hne : q ≠ p := by
      rintro rfl
      exact hq ht
    rw [hshown, if_neg hne]
    exact hs'.shown q hq
  · intro q hq hpaint
    obtain rfl : p = q := Option.some.inj (hname.symm.trans hpaint.1)
    rw [hshown, if_pos rfl]
    exact (hs'.grid.valueAt_eq_empty ht).symm
  · intro q hq hn
    have hne : q ≠ p := fun h => hn (h ▸ hname)
    rw [hshown, if_neg hne, he.shown, if_neg fun h => hne h.1]
    exact ⟨he.entered.frame q (Or.inl hne), rfl⟩

theorem stepped_fillDemo (hc : 2 ≤ s.grid.columns)
    (hf : Filled s s' (List.range s.grid.rows)) : Stepped s fillDemo s' where
  wellFormed := hf.wellFormed
  rows := hf.rows
  columns := hf.columns
  painted p hp hpaint := by
    have hrow : p.row ∈ List.range s.grid.rows := List.mem_range.mpr hp.1
    have hcol : p.column < 2 := hpaint.1.2
    refine hf.wellFormed.shown p ?_
    rcases p with ⟨row, column⟩
    simp only at hrow hcol
    rcases (by omega : column = 0 ∨ column = 1) with rfl | rfl
    · rw [hf.formula row hrow]
      simp [sampleFormula]
    · rw [hf.text row hrow]
      simp [sampleText]
  emptied _ _ _ h _ := nomatch h
  frame p _ hn := (hf.frame p (Or.inr (not_lt.mp fun h => hn ⟨hc, h⟩))).2

/-- **What an operation does**, whether it succeeds or fails. -/
theorem stepped_after (hs : s.WellFormed) (hw : s.grid.rows < Text.wordSize) (op : Operation) :
    Stepped s op (op.after s) := by
  cases op with
  | edit name text =>
    rcases hplace : s.grid.place? name with _ | p
    · have ho : (edit name text).outcome s = .error (.invalidReference name) :=
        edit_of_place?_eq_none hplace text
      rw [after, ho]
      refine stepped_same hs rfl rfl fun p hp ht => ?_
      exact absurd (hplace.symm.trans (Grid.place?_eq_some_iff.mpr ⟨ht, hp⟩)) (by simp)
    · obtain ⟨s', hok, he⟩ := exists_edited hs.grid hs.fits hplace text
      have ho : (edit name text).outcome s = .ok s' := hok
      rw [after, ho]
      exact stepped_edit hs hplace he
  | clearCell name =>
    rcases hplace : s.grid.place? name with _ | p
    · have ho : (clearCell name).outcome s = .error (.invalidReference name) :=
        clearCell_of_place?_eq_none hplace
      rw [after, ho]
      refine stepped_same hs rfl rfl fun p hp ht => ?_
      exact absurd (hplace.symm.trans (Grid.place?_eq_some_iff.mpr ⟨ht, hp⟩)) (by simp)
    · obtain ⟨s', hok, he⟩ := exists_edited hs.grid hs.fits hplace ""
      have ho : (clearCell name).outcome s = .ok (s'.paint p "") := clearCell_eq hplace hok he
      rw [after, ho]
      exact stepped_clearCell hs hplace he
  | clearAll =>
    exact stepped_refresh { s with grid := s.grid.clear } (Grid.wellFormed_clear hs.grid) rfl rfl
      (fun _ => trivial) fun _ h => nomatch h
  | refresh => exact stepped_refresh s hs.grid rfl rfl (fun _ => trivial) fun _ h => nomatch h
  | fillDemo =>
    by_cases hc : 2 ≤ s.grid.columns
    · obtain ⟨s', hok, hf⟩ := exists_fillDemo hs hw hc
      have ho : fillDemo.outcome s = .ok s' := hok
      rw [after, ho]
      exact stepped_fillDemo hc hf
    · have ho : fillDemo.outcome s = .ok s := if_pos (not_le.mp hc)
      rw [after, ho]
      exact stepped_same hs rfl rfl fun p _ h => hc h.1
  | saved result =>
    have hsame : (s.saved result).grid = s.grid ∧ (s.saved result).screen = s.screen := by
      rcases result with e | file <;> exact ⟨rfl, rfl⟩
    exact stepped_same hs hsame.1 hsame.2 fun _ _ h => h
  | load folder file =>
    rcases Grid.loadFile_cases hs.grid folder file with ⟨g, report, hok, hg, hr, hc⟩ | ⟨e, herr⟩
    · have ho : (load folder file).after s =
          ({ s with grid := g }.loaded (.ok (report, file))) := by
        simp only [after, outcome, Session.load, hok]
      rw [ho]
      exact stepped_refresh _ hg hr hc (fun _ => trivial) fun _ h => nomatch h
    · have ho : (load folder file).after s = s.loaded (.error e) := by
        simp only [after, outcome, Session.load, herr]
      rw [ho]
      exact stepped_refresh { s with status := some ("Load failed: " ++ e.message) } hs.grid rfl rfl
        (fun _ => trivial) fun _ h => nomatch h

end Operation

/-! ### Runs -/

/-- The session after operations on a given grid. -/
def run (g : Grid) (ops : List Operation) : Session := ops.foldl Operation.after (ofGrid g)

variable {g : Grid} {ops : List Operation} {op : Operation}

theorem run_concat (g : Grid) (ops : List Operation) (op : Operation) :
    run g (ops ++ [op]) = op.after (run g ops) := by
  simp [run]

theorem wellFormed_run (hg : g.WellFormed) (hw : g.rows < Text.wordSize) (ops : List Operation) :
    (run g ops).WellFormed ∧ (run g ops).grid.rows = g.rows ∧
      (run g ops).grid.columns = g.columns := by
  induction ops using List.reverseRecOn with
  | nil => exact ⟨wellFormed_refresh (s := ofGrid g) hg, rfl, rfl⟩
  | append_singleton ops op ih =>
    obtain ⟨hs, hr, hc⟩ := ih
    have hstep := Operation.stepped_after hs (hr ▸ hw) op
    rw [run_concat]
    exact ⟨hstep.wellFormed, hstep.rows.trans hr, hstep.columns.trans hc⟩

/-- Of the operations on a grid, one has entered the empty text into a cell with a value, and none
after it has painted the cell. -/
def LeftOver (g : Grid) (p : Position) (ops : List Operation) : Prop :=
  ∃ before name later, ops = before ++ .edit name "" :: later ∧ ofName? name = some p ∧
    (run g before).grid.valueAt p ≠ "" ∧ ∀ op ∈ later, ¬ op.Paints g.columns p

theorem not_leftOver_concat_of_paints (h : op.Paints g.columns p) :
    ¬ LeftOver g p (ops ++ [op]) := by
  rintro ⟨before, name, later, heq, -, -, hlater⟩
  rcases Grid.concat_eq_append_cons heq with ⟨-, rfl, -⟩ | ⟨later', rfl, -⟩
  · exact h.2 name rfl
  · exact hlater op (by simp) h

theorem leftOver_concat_iff (h : ¬ op.Paints g.columns p) : LeftOver g p (ops ++ [op]) ↔
    LeftOver g p ops ∨
      ∃ name, op = .edit name "" ∧ ofName? name = some p ∧ (run g ops).grid.valueAt p ≠ "" := by
  constructor
  · rintro ⟨before, name, later, heq, hname, hv, hlater⟩
    rcases Grid.concat_eq_append_cons heq with ⟨rfl, rfl, -⟩ | ⟨later', rfl, rfl⟩
    · exact Or.inr ⟨name, rfl, hname, hv⟩
    · exact Or.inl ⟨before, name, later', rfl, hname, hv,
        fun o ho => hlater o (List.mem_append_left _ ho)⟩
  · rintro (⟨before, name, later, rfl, hname, hv, hlater⟩ | ⟨name, rfl, hname, hv⟩)
    · refine ⟨before, name, later ++ [op], by simp, hname, hv, fun o ho => ?_⟩
      rcases List.mem_append.mp ho with ho | ho
      · exact hlater o ho
      · rw [List.mem_singleton.mp ho]; exact h
    · exact ⟨ops, name, [], rfl, hname, hv, by simp⟩

/-- A cell is shown with its value unless it is left over. -/
theorem shown_eq_valueAt_iff (hg : g.WellFormed) (hw : g.rows < Text.wordSize)
    (ops : List Operation)
    (hp : g.Contains p) : (run g ops).shown p = (run g ops).grid.valueAt p ↔
    ¬ LeftOver g p ops := by
  induction ops using List.reverseRecOn with
  | nil =>
    refine iff_of_true (shown_refresh (ofGrid g) p) ?_
    rintro ⟨before, name, later, h, -⟩
    simp at h
  | append_singleton ops op ih =>
    obtain ⟨hs, hr, hc⟩ := wellFormed_run hg hw ops
    have hstep := Operation.stepped_after hs (hr ▸ hw) op
    have hin : (run g ops).grid.Contains p := by rwa [Grid.Contains, hr, hc]
    rw [run_concat]
    by_cases hpaint : op.Paints g.columns p
    · exact iff_of_true (hstep.painted p hin (hc ▸ hpaint)) (not_leftOver_concat_of_paints hpaint)
    rw [leftOver_concat_iff hpaint]
    by_cases htouch : op.Touches g.columns p
    -- the cell is emptied without notice and shown as before, which was its value unless that was
    -- empty
    · obtain ⟨name, rfl⟩ : ∃ name, op = .edit name "" := by
        by_contra h
        exact hpaint ⟨htouch, fun name he => h ⟨name, he⟩⟩
      obtain ⟨ht, hshown⟩ := hstep.emptied p name hin rfl htouch
      rw [hshown, hstep.wellFormed.grid.valueAt_eq_empty ht]
      by_cases hv : (run g ops).grid.valueAt p = ""
      · rw [hv] at ih
        rw [ih]
        simp [hv]
      · have htext : (run g ops).grid.textAt p ≠ "" := fun h => hv (hs.grid.valueAt_eq_empty h)
        rw [hs.shown p htext]
        exact iff_of_false hv fun h => h (Or.inr ⟨name, rfl, htouch, hv⟩)
    · obtain ⟨hvalue, hshown⟩ := hstep.frame p hin (hc ▸ htouch)
      have hne : ¬ ∃ name, op = .edit name "" ∧ ofName? name = some p ∧
          (run g ops).grid.valueAt p ≠ "" := by
        rintro ⟨name, rfl, hname, -⟩
        exact htouch hname
      rw [hvalue, hshown, ih, or_iff_left hne]

/-- **What is on the screen.** After any operations on a grid, a cell that has a text is shown with
its value; and a cell is shown with its value if and only if no edit has entered the empty text into
it while it had a value, with no operation painting it afterwards. -/
theorem screen_shows_values (hg : g.WellFormed) (hw : g.rows < Text.wordSize) (ops : List Operation)
    (hp : g.Contains p) :
    ((run g ops).grid.textAt p ≠ "" → (run g ops).shown p = (run g ops).grid.valueAt p) ∧
    ((run g ops).shown p = (run g ops).grid.valueAt p ↔ ¬ LeftOver g p ops) :=
  ⟨(wellFormed_run hg hw ops).1.shown p, shown_eq_valueAt_iff hg hw ops hp⟩

/-- A cell that an edit has emptied is left over. -/
theorem emptied_cell_left_over :
    (Grid.empty 1 1).WellFormed ∧ (Grid.empty 1 1).rows < Text.wordSize ∧
      (Grid.empty 1 1).Contains ⟨0, 0⟩ ∧
      (run (.empty 1 1) [.edit "A1" "x", .edit "A1" ""]).shown ⟨0, 0⟩ ≠
        (run (.empty 1 1) [.edit "A1" "x", .edit "A1" ""]).grid.valueAt ⟨0, 0⟩ := by
  have hg := Grid.wellFormed_empty 1 1
  have hw : (Grid.empty 1 1).rows < Text.wordSize := by decide
  have hp : (Grid.empty 1 1).Contains ⟨0, 0⟩ := by decide
  refine ⟨hg, hw, hp, fun h => ?_⟩
  refine (screen_shows_values hg hw [.edit "A1" "x", .edit "A1" ""] hp).2.mp h ?_
  exact ⟨[.edit "A1" "x"], "A1", [], rfl, by decide, by decide, by simp⟩

/-- A cell that has lost its text to an edit keeps its old value on the screen. -/
theorem emptied_cell_still_shown :
    (run (.empty 1 1) [.edit "A1" "x", .edit "A1" ""]).shown ⟨0, 0⟩ = "x" ∧
      (run (.empty 1 1) [.edit "A1" "x", .edit "A1" ""]).grid.valueAt ⟨0, 0⟩ = "" := by
  decide

end Session
end Worksheet
