import Worksheet.Proofs.SavedSheet

/-! # The layout of a grid

`Layout rows columns g` is what can be relied on in a grid of the given size: which cell stands
where, under which name it is found, when it is blank, and what is written of it. A well-formed grid
has it (`WellFormed.layout`), so every grid that calls and documents lead to has it
(`layout_reach`). -/

namespace Worksheet

open Position

/-- The element of a cell in a document: its name, and its text with the characters that are markup
escaped. -/
def Cell.element (c : Cell) : String :=
  "<cell name=\"" ++ c.name ++ "\"><text>" ++ String.ofList (Markup.escape c.text.toList) ++
    "</text></cell>"

/-- The document of some cells, one element each. -/
def Cell.elements (cells : List Cell) : String :=
  if cells = [] then "<spreadsheet/>" else "<spreadsheet>" ++ String.join (cells.map element) ++
    "</spreadsheet>"

/-- What is written for the record of a cell is its element. -/
theorem Document.recordMarkup_cell (c : Cell) :
    recordMarkup ⟨c.name, some c.text⟩ = c.element.toList := by
  have hopen : "\"><text>".toList = "\">".toList ++ "<text>".toList := by decide
  have hclose : "</text></cell>".toList = "</text>".toList ++ "</cell>".toList := by decide
  unfold recordMarkup textMarkup Cell.element
  simp only [String.toList_append, String.toList_ofList, hopen, hclose, List.append_assoc]

theorem Document.markup_cells (cells : List Cell) :
    String.ofList (markup (cells.map fun c => ⟨c.name, some c.text⟩)) = Cell.elements cells := by
  rw [← String.toList_inj, String.toList_ofList]
  rcases cells with _ | ⟨c, cells⟩
  · rfl
  · simp [markup, Cell.elements, List.flatMap_map, recordMarkup_cell, String.toList_join]

namespace Grid

variable {g : Grid} {rows columns : ℕ}

/-! ### What follows from well-formedness -/

namespace WellFormed

/-- The cell of a row and a column stands behind those of the rows before and of the columns
before. -/
theorem exists_getElem? (hg : g.WellFormed) {p : Position} (hp : g.Contains p) :
    ∃ c, g.cells[g.index p]? = some c ∧ c.position = p := by
  obtain ⟨c, hc, hpos⟩ := hg.exists_cell hp
  rw [cell?_of_contains hp] at hc
  exact ⟨c, hc, hpos⟩

/-- A cell is blank exactly if it has no text. -/
theorem isBlank_iff (hg : g.WellFormed) {c : Cell} (hc : c ∈ g.cells) : c.isBlank = true ↔
    c.text = "" := by
  simp only [Cell.isBlank, Bool.and_eq_true, beq_iff_eq]
  exact ⟨fun h => h.1, fun h => ⟨h, hg.blank c hc h⟩⟩

/-- No two cells have the same name. -/
theorem nodup_names (hg : g.WellFormed) : (g.cells.toList.map Cell.name).Nodup := by
  rw [List.nodup_iff_pairwise_ne, List.pairwise_map]
  exact hg.pairwise_cells.imp fun h he => h.ne (name_injective he)

/-- A cell is found under its name, if the two numbers in it are words. -/
theorem cellNamed?_name_of_lt (hg : g.WellFormed) {c : Cell} (hmem : c ∈ g.cells)
    (hrow : c.position.row + 1 < Text.wordSize) (hcolumn : c.position.column + 1 < Text.wordSize) :
    g.place? c.name = some c.position ∧ g.cellNamed? c.name = some c := by
  obtain ⟨hin, hcell⟩ := hg.cell?_position hmem
  have hplace : g.place? c.name = some c.position :=
    place?_eq_some_iff.mpr ⟨ofName?_name hrow hcolumn, hin⟩
  refine ⟨hplace, ?_⟩
  rw [cellNamed?, hplace]
  exact hcell

/-- A cell is found under its name, if the numbers of rows and columns are words. -/
theorem cellNamed?_name (hg : g.WellFormed) (hr : g.rows < Text.wordSize)
    (hc : g.columns < Text.wordSize)
    {c : Cell} (hmem : c ∈ g.cells) : g.place? c.name = some c.position ∧
    g.cellNamed? c.name = some c := by
  obtain ⟨hin, -⟩ := hg.cell?_position hmem
  exact hg.cellNamed?_name_of_lt hmem (Nat.lt_of_le_of_lt hin.1 hr) (Nat.lt_of_le_of_lt hin.2 hc)

/-- Clearing leaves no cell that is not blank, though it passes over those without text. -/
theorem isBlank_of_mem_clear (hg : g.WellFormed) {c : Cell} (hc : c ∈ g.clear.cells) :
    c.isBlank = true := by
  rw [(wellFormed_clear hg).isBlank_iff hc]
  obtain ⟨d, -, rfl⟩ := Array.mem_map.mp hc
  exact Cell.text_clear d

/-- The records of a grid are those of its cells with a text. -/
theorem records_eq (hg : g.WellFormed) :
    g.records = (g.cells.toList.filter fun c => c.text ≠ "").map fun c =>
      ⟨c.name, some c.text⟩ := by
  rw [records, filled]
  congr 1
  refine List.filter_congr fun c hc => ?_
  have hblank := hg.isBlank_iff (Array.mem_toList_iff.mp hc)
  rcases h : c.isBlank with _ | _ <;> simp_all

end WellFormed

/-! ### The layout -/

/-- What can be relied on in a grid of the given size. -/
structure Layout (rows columns : ℕ) (g : Grid) : Prop where
  height : g.rows = rows
  width : g.columns = columns
  /-- There are as many cells as places, and the index of a place inside the grid is one of them. -/
  size : g.cells.size = rows * columns
  index_lt : ∀ p, g.Contains p → g.index p < g.cells.size
  /-- Each cell stands in its place, and has the name of this place. -/
  cell : ∀ row < rows, ∀ column < columns, ∃ c, g.cells[row * columns + column]? = some c ∧
    c.position = ⟨row, column⟩ ∧ c.name = (Cell.blank ⟨row, column⟩).name
  names : (g.cells.toList.map Cell.name).Nodup
  /-- A cell is found under its name. -/
  found : ∀ c ∈ g.cells, g.place? c.name = some c.position ∧ g.cellNamed? c.name = some c
  /-- A cell is blank exactly if it has no text, and clearing makes all cells blank. -/
  blank : ∀ c ∈ g.cells, c.isBlank = true ↔ c.text = ""
  cleared : ∀ c ∈ g.clear.cells, c.isBlank = true
  /-- The cells stand row by row, and one record is written of each that has a text. -/
  ordered : g.cells.toList.Pairwise fun c d => c.position.Precedes d.position
  document : g.document = String.ofList (Document.markup
    ((g.cells.toList.filter fun c => c.text ≠ "").map fun c => ⟨c.name, some c.text⟩))
  elements : g.document = Cell.elements (g.cells.toList.filter fun c => c.text ≠ "")

theorem WellFormed.layout (hg : g.WellFormed) (hr : g.rows < Text.wordSize)
    (hc : g.columns < Text.wordSize) : Layout g.rows g.columns g where
  height := rfl
  width := rfl
  size := hg.size
  index_lt p hp := by
    rw [hg.size]
    exact Grid.index_lt hp
  cell row hrow column hcolumn := by
    obtain ⟨c, hcell, hpos⟩ := hg.exists_getElem? (p := ⟨row, column⟩) ⟨hrow, hcolumn⟩
    exact ⟨c, hcell, hpos, congrArg Position.name hpos⟩
  names := hg.nodup_names
  found c hmem := hg.cellNamed?_name hr hc hmem
  blank c hmem := hg.isBlank_iff hmem
  cleared c hmem := hg.isBlank_of_mem_clear hmem
  ordered := hg.pairwise_cells
  document := by rw [Grid.document, hg.records_eq]
  elements := by rw [Grid.document, hg.records_eq, Document.markup_cells]

/-- **Every grid that steps lead to is laid out as it should be**, whatever calls and documents they
are and whether they succeed or fail. -/
theorem layout_reach {rows columns : ℕ} (hr : rows < 2 ^ 64) (hc : columns < 2 ^ 64)
    (steps : List Step) : Layout rows columns (reach rows columns steps) := by
  obtain ⟨hg, hrows, hcolumns⟩ := wellFormed_reach rows columns steps
  have hlayout := hg.layout (hrows.symm ▸ hr) (hcolumns.symm ▸ hc)
  rwa [hrows, hcolumns] at hlayout

/-- Two texts are entered in a grid of two rows and 28 columns, a document that is none is read onto
it, and one text is taken away. -/
def sampleSteps : List Step :=
  [.call (.setNamed "aB2" "=A1"), .call (.setNamed "A1" "x"), .read (Text.encode "x"),
    .call (.clearCell ⟨0, 0⟩)]

theorem name_lastCell : Position.name ⟨1, 27⟩ = "AB2" := by
  have hletters : Column.letters 28 = ['A', 'B'] := by
    rw [Column.letters_succ, Column.letters_succ]
    simp [Column.letters]
    decide
  rw [Position.name, hletters]
  decide

/-- The last cell of that grid is behind 55 others, is found under its name, and is the one that is
written. -/
theorem last_cell_of_sample :
    2 < 2 ^ 64 ∧ 28 < 2 ^ 64 ∧ (reach 2 28 sampleSteps).cells.size = 56 ∧
      (∃ c, (reach 2 28 sampleSteps).cells[55]? = some c ∧ c.name = "AB2" ∧
        (reach 2 28 sampleSteps).cellNamed? "AB2" = some c) ∧
      (reach 2 28 sampleSteps).document =
        "<spreadsheet><cell name=\"AB2\"><text>=A1</text></cell></spreadsheet>" := by
  have hr : 2 < 2 ^ 64 := by decide
  have hc : 28 < 2 ^ 64 := by decide
  have hlayout := layout_reach hr hc sampleSteps
  obtain ⟨c, hcell, hpos, -⟩ := hlayout.cell 1 (by decide) 27 (by decide)
  have hname : c.name = "AB2" := by rw [Cell.name, hpos, name_lastCell]
  have hfound := (hlayout.found c (Array.mem_of_getElem? hcell)).2
  have htexts : (reach 2 28 sampleSteps).cells.toList.filter (fun c => c.text ≠ "") =
      [⟨⟨1, 27⟩, "=A1", ""⟩] := by
    decide +kernel
  refine ⟨hr, hc, hlayout.size, ⟨c, hcell, hname, hname ▸ hfound⟩, ?_⟩
  rw [hlayout.elements, htexts, Cell.elements, if_neg (List.cons_ne_nil _ _), List.map_singleton,
    Cell.element, Cell.name,
    name_lastCell]
  decide

end Grid

end Worksheet
