import Worksheet.Proofs.CommandLine
import Worksheet.Proofs.OneEdit

/-! # Sample content

What the operations of a session do to its grid are calls, so that the grid of a session has a
history as any other (`reachable_run`). Sample content is two calls for each row, a text into column
B and a formula that refers to it into column A (`rowCalls`). The formula takes the text if it is
new. If it has stood there already, nothing is entered and the value stays, even if it is another
one (`FormulasEntered`). `sample_content_from_any_session` is the statement on all sessions. -/

namespace Worksheet

open Position

namespace Session

variable {s s' : Session} {g g' : Grid} {p : Position} {row : ℕ}

/-! ### The calls of sample content -/

/-- The calls that fill one row with sample content. -/
def rowCalls (row : ℕ) : List Call :=
  [.setNamed ("B" ++ toString (row + 1)) (sampleText row),
    .setNamed ("A" ++ toString (row + 1)) (sampleFormula row)]

/-- The calls that fill a sheet with sample content, row by row: none if there are fewer than two
columns. -/
def sampleCalls (rows columns : ℕ) : List Call :=
  if columns < 2 then [] else (List.range rows).flatMap rowCalls

theorem grid_fillRow {row : ℕ} (h : s.fillRow row = .ok s') :
    s'.grid = (rowCalls row).foldl Call.after s.grid := by
  obtain ⟨s₁, htext, hformula⟩ := exists_of_bind_eq_ok h
  rw [grid_edit hformula, grid_edit htext]
  rfl

theorem grid_foldlM_fillRow {l : List ℕ} (h : l.foldlM fillRow s = .ok s') :
    s'.grid = (l.flatMap rowCalls).foldl Call.after s.grid := by
  induction l generalizing s with
  | nil => cases h; rfl
  | cons row l ih =>
    rw [List.foldlM_cons] at h
    obtain ⟨s₁, hrow, hrest⟩ := exists_of_bind_eq_ok h
    rw [ih hrest, grid_fillRow hrow, List.flatMap_cons, List.foldl_append]

theorem grid_fillDemo (h : s.fillDemo = .ok s') :
    s'.grid = (sampleCalls s.grid.rows s.grid.columns).foldl Call.after s.grid := by
  unfold fillDemo at h
  unfold sampleCalls
  split at h
  · next hc =>
    rw [if_pos hc, ← Except.ok.inj h]
    rfl
  · next hc => rw [if_neg hc, grid_foldlM_fillRow h]

/-- Loading a file reads some document onto the grid, or leaves it. -/
theorem grid_load (s : Session) (folder : Folder) (file : String) :
    (s.load folder file).grid = s.grid ∨ ∃ bytes, (s.load folder file).grid =
      (Grid.Step.read bytes).after s.grid := by
  unfold load
  rcases hload : s.grid.loadFile folder file with e | ⟨g, report⟩
  · exact Or.inl rfl
  · obtain ⟨bytes, -, hread⟩ := exists_of_bind_eq_ok hload
    refine Or.inr ⟨bytes, ?_⟩
    rw [Grid.Step.after, hread]
    rfl

theorem reachable_outcome {op : Operation} (hs : s.grid.Reachable) (h : op.outcome s = .ok s') :
    s'.grid.Reachable := by
  cases op with
  | edit name text =>
    rw [grid_edit h]
    exact hs.after (.call _)
  | clearCell name =>
    rw [grid_clearCell h]
    exact hs.after (.call _)
  | clearAll =>
    cases h
    exact hs.after (.call .clear)
  | refresh =>
    cases h
    exact hs
  | fillDemo =>
    rw [grid_fillDemo h]
    exact hs.foldl_after _
  | saved result =>
    cases h
    rcases result with e | file <;> exact hs
  | load folder file =>
    cases h
    rcases grid_load s folder file with hgrid | ⟨bytes, hgrid⟩
    · rwa [hgrid]
    · rw [hgrid]
      exact hs.after (.read bytes)

/-- **The grid of a session is one that steps lead to.** -/
theorem reachable_run (hg : g.Reachable) (ops : List Operation) : (run g ops).grid.Reachable := by
  induction ops using List.reverseRecOn with
  | nil => exact hg
  | append_singleton ops op ih =>
    rw [run_concat, Operation.after]
    split
    · next h => exact reachable_outcome ih h
    · exact ih

/-! ### Formulas of the sample -/

theorem refers_sampleFormula (hw : row + 1 < Text.wordSize) : Refers (sampleFormula row) ⟨row, 1⟩ :=
  ⟨'B', Text.digitsOf (row + 1), by simp [sampleFormula, Text.digitsOf], by decide,
    Text.isDigits_digitsOf _, (by decide : Column.digit 'B' = 2), Text.digitsValue_digitsOf _, hw⟩

/-- What the calls of some rows make of column A: a formula that is new takes the text of the
sample, and one that has stood there keeps its value. -/
structure FormulasEntered (g g' : Grid) (l : List ℕ) : Prop where
  wellFormed : g'.WellFormed
  rows : g'.rows = g.rows
  columns : g'.columns = g.columns
  textAt : ∀ row, g'.textAt ⟨row, 0⟩ = if row ∈ l then sampleFormula row else g.textAt ⟨row, 0⟩
  valueAt : ∀ row, g'.valueAt ⟨row, 0⟩ =
    if row ∈ l ∧ g.textAt ⟨row, 0⟩ ≠ sampleFormula row then sampleText row else g.valueAt ⟨row, 0⟩

/-- A text in column B and then the formula beside it. The formula is settled among texts of which
the first is one. -/
theorem formulasEntered_of_entered {g₁ g₂ : Grid} (hB : g.Contains ⟨row, 1⟩)
    (hw : row + 1 < Text.wordSize)
    (htext : Grid.Entered g g₁ ⟨row, 1⟩ (sampleText row))
    (hformula : Grid.Entered g₁ g₂ ⟨row, 0⟩ (sampleFormula row)) : FormulasEntered g g₂ [row] := by
  have hne : ∀ i : ℕ, (⟨i, 0⟩ : Position) ≠ ⟨row, 1⟩ := by simp
  have htextA : ∀ i : ℕ, g₁.textAt ⟨i, 0⟩ = g.textAt ⟨i, 0⟩ :=
    fun i => by rw [htext.textAt, if_neg (hne i)]
  have hvalueA : ∀ i : ℕ, g₁.valueAt ⟨i, 0⟩ = g.valueAt ⟨i, 0⟩ :=
    fun i => htext.frame _ (Or.inl (hne i))
  refine ⟨hformula.wellFormed, hformula.rows.trans htext.rows, hformula.columns.trans htext.columns,
    fun i => ?_, fun i => ?_⟩
  · rw [hformula.textAt, htextA]
    by_cases hi : i = row
    · subst hi
      simp
    · simp [hi]
  by_cases hi : i = row
  · subst hi
    by_cases hold : g.textAt ⟨i, 0⟩ = sampleFormula i
    · rw [if_neg fun h => h.2 hold, hformula.frame _ (Or.inr ((htextA i).trans hold)), hvalueA]
    · have hsettled := hformula.settled (htextA i ▸ hold)
      have hrefers : Means g₁.rows g₁.columns g₂.textAt (sampleFormula i) (g₂.textAt ⟨i, 1⟩) :=
        .reference (refers_sampleFormula hw) (htext.rows.symm ▸ htext.columns.symm ▸ hB)
      rw [if_pos ⟨List.mem_singleton_self i, hold⟩, hsettled.eq hrefers, hformula.textAt,
        if_neg (by simp),
        htext.textAt, if_pos rfl]
  · rw [if_neg fun h => hi (List.mem_singleton.mp h.1),
      hformula.frame _ (Or.inl (by simpa using hi)), hvalueA]

/-- The calls of a row reach their cells. -/
theorem formulasEntered_rowCalls (hg : g.WellFormed) (hr : row < g.rows)
    (hw : row + 1 < Text.wordSize)
    (hc : 2 ≤ g.columns) : FormulasEntered g ((rowCalls row).foldl Call.after g) [row] := by
  have hB : g.Contains ⟨row, 1⟩ := ⟨hr, hc⟩
  have htext :=
    Call.entered_setNamed hg (Grid.place?_eq_some_iff.mp (place?_letter hB hw (by decide))).1 hB
    (sampleText row)
  have hA : Grid.Contains _ ⟨row, 0⟩ :=
    ⟨htext.rows.symm ▸ hr, htext.columns.symm ▸ Nat.zero_lt_of_lt hc⟩
  have hformula := Call.entered_setNamed htext.wellFormed
    (Grid.place?_eq_some_iff.mp (place?_letter hA hw (by decide))).1 hA (sampleFormula row)
  exact formulasEntered_of_entered hB hw htext hformula

theorem FormulasEntered.trans {g'' : Grid} {l l' : List ℕ} (h : FormulasEntered g g' l)
    (h' : FormulasEntered g' g'' l') : FormulasEntered g g'' (l ++ l') where
  wellFormed := h'.wellFormed
  rows := h'.rows.trans h.rows
  columns := h'.columns.trans h.columns
  textAt row := by
    rw [h'.textAt, h.textAt]
    by_cases hl : row ∈ l <;> by_cases hl' : row ∈ l' <;> simp [hl, hl']
  valueAt row := by
    rw [h'.valueAt, h.valueAt, h.textAt]
    -- a row that comes twice finds its formula there the second time
    by_cases hl : row ∈ l <;> by_cases hl' : row ∈ l' <;> simp [hl, hl']

/-- **The formulas of a sheet that is filled row by row.** -/
theorem formulasEntered_flatMap {l : List ℕ} (hg : g.WellFormed) (hr : ∀ row ∈ l, row < g.rows)
    (hw : g.rows < Text.wordSize) (hc : 2 ≤ g.columns) :
    FormulasEntered g ((l.flatMap rowCalls).foldl Call.after g) l := by
  induction l generalizing g with
  | nil => exact ⟨hg, rfl, rfl, by simp, by simp⟩
  | cons row l ih =>
    have hrow := hr row List.mem_cons_self
    have hfirst := formulasEntered_rowCalls hg hrow (by omega) hc
    rw [List.flatMap_cons, List.foldl_append]
    refine hfirst.trans (ih hfirst.wellFormed (fun i hi => ?_) (hfirst.rows.symm ▸ hw)
      (hfirst.columns.symm ▸ hc))
    rw [hfirst.rows]
    exact hr i (List.mem_cons_of_mem row hi)

/-! ### Filling a sheet twice -/

theorem edit_of_textAt_eq {name text : String} (hg : s.grid.WellFormed)
    (hplace : s.grid.place? name = some p)
    (h : s.grid.textAt p = text) : s.edit name text = .ok s :=
  edit_of_setText hplace (Grid.setText_of_textAt_eq hg (Grid.place?_eq_some_iff.mp hplace).2 h)

/-- A row that has its sample content stays as it is. -/
theorem fillRow_of_textAt_eq (hg : s.grid.WellFormed) (hr : row < s.grid.rows)
    (hw : row + 1 < Text.wordSize)
    (hc : 2 ≤ s.grid.columns) (htext : s.grid.textAt ⟨row, 1⟩ = sampleText row)
    (hformula : s.grid.textAt ⟨row, 0⟩ = sampleFormula row) : s.fillRow row = .ok s := by
  have hB := edit_of_textAt_eq hg (place?_letter ⟨hr, hc⟩ hw (by decide)) htext
  have hA := edit_of_textAt_eq hg (place?_letter ⟨hr, Nat.zero_lt_of_lt hc⟩ hw (by decide)) hformula
  have hB' : s.edit ("B" ++ toString (row + 1)) ("This is cell B" ++ toString (row + 1)) = .ok s :=
    hB
  have hA' : s.edit ("A" ++ toString (row + 1)) ("=B" ++ toString (row + 1)) = .ok s := hA
  simp only [fillRow, hB', hA', bind, Except.bind]

theorem foldlM_of_eq_ok {ε α β : Type} {f : β → α → Except ε β} {b : β} {l : List α}
    (h : ∀ a ∈ l, f b a = .ok b) : l.foldlM f b = .ok b := by
  induction l with
  | nil => rfl
  | cons a l ih =>
    rw [List.foldlM_cons, h a List.mem_cons_self]
    exact ih fun a' ha' => h a' (List.mem_cons_of_mem a ha')

/-- **Filling a sheet again changes nothing.** -/
theorem fillDemo_of_filled (hw : s.grid.rows < Text.wordSize)
    (hf : Filled s s' (List.range s.grid.rows)) : s'.fillDemo = .ok s' := by
  unfold fillDemo
  split
  · rfl
  · next hc =>
    refine foldlM_of_eq_ok fun row hrow => ?_
    have hlt := List.mem_range.mp hrow
    have hmem : row ∈ List.range s.grid.rows := hf.rows ▸ hrow
    have hlt' : row < s.grid.rows := List.mem_range.mp hmem
    exact fillRow_of_textAt_eq hf.wellFormed.grid hlt (by omega) (not_lt.mp hc) (hf.text row hmem)
      (hf.formula row hmem)

/-! ### Filling the sheet of any session -/

/-- What sample content makes of a session with two columns or more. In each row the cell in column
B has the text of the sample for its text and its value. The cell in column A has the formula, and
that text for its value if the formula is new there, its old value otherwise. Both are shown with
their values, and the cells of all other columns stay as they are, on the grid and on the screen. -/
structure Sampled (s s' : Session) : Prop where
  rows : s'.grid.rows = s.grid.rows
  columns : s'.grid.columns = s.grid.columns
  text : ∀ row < s.grid.rows, s'.shown ⟨row, 1⟩ = sampleText row ∧
    s'.grid.cellNamed? ("B" ++ toString (row + 1)) = some ⟨⟨row, 1⟩, sampleText row, sampleText row⟩
  formula : ∀ row < s.grid.rows, ∃ value, s'.shown ⟨row, 0⟩ = value ∧
    s'.grid.cellNamed? ("A" ++ toString (row + 1)) = some ⟨⟨row, 0⟩, sampleFormula row, value⟩ ∧
    value = if s.grid.textAt ⟨row, 0⟩ = sampleFormula row then s.grid.valueAt ⟨row, 0⟩
      else sampleText row
  frame : ∀ p, 2 ≤ p.column → s'.grid.cell? p = s.grid.cell? p ∧ s'.shown p = s.shown p

theorem head?_sampleText (row : ℕ) : (sampleText row).toList.head? ≠ some '=' := by
  simp [sampleText]

/-- The cell that a name of one letter leads to. -/
theorem cellNamed?_letter (hg : g.WellFormed) {column : ℕ} (hp : g.Contains ⟨row, column⟩)
    (hw : row + 1 < Text.wordSize) (hc : column < 26) :
    g.cellNamed? (String.ofList [Column.letter column] ++ toString (row + 1)) =
      some ⟨⟨row, column⟩, g.textAt ⟨row, column⟩, g.valueAt ⟨row, column⟩⟩ := by
  rw [Grid.cellNamed?, place?_letter hp hw hc, Option.bind_some, hg.cell?_eq hp]

theorem sampled_of_filled (hs : s.WellFormed) (hw : s.grid.rows < Text.wordSize)
    (hc : 2 ≤ s.grid.columns)
    (hg' : s'.grid.Reachable) (hf : Filled s s' (List.range s.grid.rows))
    (hformulas : FormulasEntered s.grid s'.grid (List.range s.grid.rows)) : Sampled s s' := by
  have hin : ∀ row < s.grid.rows, ∀ column <
      2, s'.grid.Contains ⟨row, column⟩ := fun row hr column hcol => by
    rw [Grid.Contains, hf.rows, hf.columns]
    exact ⟨hr, hcol.trans_le hc⟩
  refine ⟨hf.rows, hf.columns, fun row hr => ?_, fun row hr => ?_, fun p hp => ?_⟩
  · have hmem := List.mem_range.mpr hr
    have htext := hf.text row hmem
    have hvalue : s'.grid.valueAt ⟨row, 1⟩ = sampleText row := by
      rw [hg'.valueAt_of_head? (htext ▸ head?_sampleText row), htext]
    have hcell :=
      cellNamed?_letter hf.wellFormed.grid (hin row hr 1 (by decide)) (by omega) (by decide)
    rw [htext, hvalue] at hcell
    refine ⟨?_, hcell⟩
    rw [hf.wellFormed.shown _ (by rw [htext]; simp [sampleText]), hvalue]
  · have hmem := List.mem_range.mpr hr
    have htext := hf.formula row hmem
    have hcell :=
      cellNamed?_letter hf.wellFormed.grid (hin row hr 0 (by decide)) (by omega) (by decide)
    rw [htext] at hcell
    refine ⟨_, hf.wellFormed.shown _ (by rw [htext]; simp [sampleFormula]), hcell, ?_⟩
    rw [hformulas.valueAt]
    by_cases hold : s.grid.textAt ⟨row, 0⟩ = sampleFormula row <;> simp [hold, hr]
  · obtain ⟨htext, hvalue, hshown⟩ := hf.frame p (Or.inr hp)
    exact ⟨hs.grid.cell?_congr hf.wellFormed.grid hf.rows hf.columns htext hvalue, hshown⟩

/-- **Sample content from any session.** Take a session that operations lead to, from a session on
any grid with as many rows as a word can count. Filling its sheet succeeds. With fewer than two
columns it changes nothing. Otherwise it does what `Sampled` says: a formula that has stood in
column A already is not settled again, and keeps its value even if the text that it refers to is
another one now. Filling the sheet a second time changes nothing. If the sheet was blank, each cell
in column A is shown with the text in column B. -/
theorem sample_content_from_any_session (hg : g.Reachable) (hw : g.rows < Text.wordSize)
    (ops : List Operation) :
    ∃ s', (run g ops).fillDemo = .ok s' ∧
      (g.columns < 2 → s' = run g ops) ∧
      (2 ≤ g.columns → Sampled (run g ops) s') ∧
      s'.fillDemo = .ok s' ∧
      (2 ≤ g.columns → (∀ p, (run g ops).grid.textAt p = "") →
        ∀ row < g.rows, s'.shown ⟨row, 0⟩ = s'.grid.textAt ⟨row, 1⟩) := by
  obtain ⟨hs, hrows, hcolumns⟩ := wellFormed_run hg.wellFormed hw ops
  have hreach := reachable_run hg ops
  generalize run g ops = s at hs hrows hcolumns hreach ⊢
  rw [← hrows] at hw ⊢
  rw [← hcolumns]
  by_cases hc : s.grid.columns < 2
  · have hfill : s.fillDemo = .ok s := if_pos hc
    exact ⟨s, hfill, fun _ => rfl, fun h => absurd hc (not_lt.mpr h), hfill,
      fun h => absurd hc (not_lt.mpr h)⟩
  · obtain ⟨s', hfill, hf⟩ := exists_fillDemo hs hw (not_lt.mp hc)
    have hgrid := grid_fillDemo hfill
    have hreach' : s'.grid.Reachable := hgrid ▸ hreach.foldl_after _
    rw [sampleCalls, if_neg hc] at hgrid
    have hformulas :=
      formulasEntered_flatMap hs.grid (l := List.range s.grid.rows) (fun _ => List.mem_range.mp) hw
      (not_lt.mp hc)
    rw [← hgrid] at hformulas
    have hsampled := sampled_of_filled hs hw (not_lt.mp hc) hreach' hf hformulas
    refine ⟨s', hfill, fun h => absurd h hc, fun _ => hsampled, fillDemo_of_filled hw hf,
      fun _ hblank row hr => ?_⟩
    obtain ⟨value, hshown, -, rfl⟩ := hsampled.formula row hr
    rw [hshown, hf.text row (List.mem_range.mpr hr), hblank, if_neg (by simp [sampleFormula])]

/-- A session in which a formula of the sample has taken another text. -/
def formerSession : Session :=
  run (.reach 2 3 []) [.edit "B1" "x", .edit "A1" "=B1", .edit "C2" "kept"]

/-- The formula that has stood there keeps its value, although the text beside it has changed. -/
theorem former_value_kept : (Grid.reach 2 3 []).Reachable ∧
    (Grid.reach 2 3 []).rows < Text.wordSize ∧
    ∃ s', formerSession.fillDemo = .ok s' ∧ s'.shown ⟨0, 0⟩ = "x" ∧
      s'.shown ⟨0, 1⟩ = "This is cell B1" ∧
      s'.shown ⟨1, 0⟩ = "This is cell B2" ∧ s'.shown ⟨1, 2⟩ = "kept" := by
  have hg : (Grid.reach 2 3 []).Reachable := ⟨2, 3, [], rfl⟩
  have hw : (Grid.reach 2 3 []).rows < Text.wordSize := by decide
  obtain ⟨s', hfill, -, hsampled, -⟩ :=
    sample_content_from_any_session hg hw [.edit "B1" "x", .edit "A1" "=B1", .edit "C2" "kept"]
  have hs := hsampled (by decide)
  obtain ⟨first, hfirst, -, rfl⟩ := hs.formula 0 (by decide)
  obtain ⟨second, hsecond, -, rfl⟩ := hs.formula 1 (by decide)
  refine ⟨hg, hw, s', hfill, hfirst.trans (by decide), (hs.text 0 (by decide)).1.trans (by decide),
    hsecond.trans (by decide), (hs.frame ⟨1, 2⟩ (by decide)).2.trans (by decide)⟩

end Session

end Worksheet
