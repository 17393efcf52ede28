import Worksheet.Proofs.Loading

/-! # Saved sheets loaded again

The cells of a grid are written row by row, and their texts entered again in this order. What a text
finds in the grid at its turn are the texts of the cells before it (`loaded_cells`), so the values
after loading are told by the texts alone, whatever they were before saving. `load_saved_sheet` says
this for grids of any two sizes. -/

namespace Worksheet

open Position

/-- The position comes before the other one, row by row. -/
def Position.Precedes (p q : Position) : Prop := p.row < q.row ∨ p.row = q.row ∧ p.column < q.column

instance (p q : Position) : Decidable (p.Precedes q) := inferInstanceAs (Decidable (_ ∨ _))

theorem Position.Precedes.ne {p q : Position} (h : p.Precedes q) : p ≠ q := by
  rintro rfl
  unfold Precedes at h
  omega

theorem Position.Precedes.trans {p q r : Position} (h : p.Precedes q) (h' : q.Precedes r) :
    p.Precedes r := by
  unfold Precedes at h h' ⊢
  omega

namespace Grid

variable {g h : Grid}

/-! ### Cells in their order -/

namespace WellFormed

theorem position_getElem (hg : g.WellFormed) {i : ℕ} (hi : i < g.cells.size) :
    g.cells[i].position = ⟨i / g.columns, i % g.columns⟩ ∧
      g.Contains ⟨i / g.columns, i % g.columns⟩ := by
  have hlt : i < g.rows * g.columns := hg.size ▸ hi
  have hpos : 0 < g.columns := by
    rcases Nat.eq_zero_or_pos g.columns with h0 | h0
    · rw [h0] at hlt; omega
    · exact h0
  have hin : g.Contains ⟨i / g.columns, i % g.columns⟩ :=
    ⟨Nat.div_lt_of_lt_mul (by rwa [Nat.mul_comm]), Nat.mod_lt _ hpos⟩
  have hidx : g.index ⟨i / g.columns, i % g.columns⟩ = i := by
    rw [index, Nat.mul_comm]; exact Nat.div_add_mod _ _
  exact ⟨hg.position _ hin _ (by rw [hidx]; exact Array.getElem?_eq_getElem hi), hin⟩

theorem cell?_position (hg : g.WellFormed) {c : Cell} (hc : c ∈ g.cells) :
    g.Contains c.position ∧ g.cell? c.position = some c := by
  obtain ⟨i, hi, rfl⟩ := Array.mem_iff_getElem.mp hc
  obtain ⟨hpos, hin⟩ := hg.position_getElem hi
  rw [hpos]
  refine ⟨hin, ?_⟩
  have hidx : g.index ⟨i / g.columns, i % g.columns⟩ = i := by
    rw [index, Nat.mul_comm]; exact Nat.div_add_mod _ _
  rw [cell?_of_contains hin, hidx, Array.getElem?_eq_getElem hi]

/-- The cells stand in the order of their positions. -/
theorem pairwise_cells (hg : g.WellFormed) :
    g.cells.toList.Pairwise fun c d => c.position.Precedes d.position := by
  rw [List.pairwise_iff_getElem]
  intro i j hi hj hij
  simp only [Array.length_toList, Array.getElem_toList] at hi hj ⊢
  rw [(hg.position_getElem hi).1, (hg.position_getElem hj).1]
  rcases Nat.lt_or_eq_of_le (Nat.div_le_div_right hij.le : i / g.columns ≤ j / g.columns)
    with hlt | heq
  · exact Or.inl hlt
  · refine Or.inr ⟨heq, ?_⟩
    have h1 := Nat.div_add_mod i g.columns
    have h2 := Nat.div_add_mod j g.columns
    rw [heq] at h1
    simp only
    omega

/-- The cells that are not blank are those with a text. -/
theorem mem_filled_iff (hg : g.WellFormed) {c : Cell} :
    c ∈ g.filled ↔ c ∈ g.cells ∧ c.text ≠ "" := by
  simp only [filled, List.mem_filter, Array.mem_toList_iff, Bool.not_eq_true', Cell.isBlank,
    Bool.and_eq_false_iff, beq_eq_false_iff_ne]
  constructor
  · rintro ⟨hc, ht⟩
    exact ⟨hc, fun he => ht.elim (fun h => h he) fun h => h (hg.blank c hc he)⟩
  · rintro ⟨hc, ht⟩
    exact ⟨hc, Or.inl ht⟩

theorem textAt_of_mem_filled (hg : g.WellFormed) {c : Cell} (hc : c ∈ g.filled) :
    g.Contains c.position ∧ g.textAt c.position = c.text ∧ c.text ≠ "" := by
  obtain ⟨hmem, ht⟩ := hg.mem_filled_iff.mp hc
  obtain ⟨hin, hcell⟩ := hg.cell?_position hmem
  exact ⟨hin, by simp [textAt, hcell], ht⟩

theorem exists_mem_filled (hg : g.WellFormed) {p : Position} (ht : g.textAt p ≠ "") :
    ∃ c ∈ g.filled, c.position = p ∧ c.text = g.textAt p := by
  have hp : g.Contains p := by
    by_contra hp
    exact ht (textAt_of_not_contains hp)
  have hcell := hg.cell?_eq hp
  rw [cell?_of_contains hp] at hcell
  exact ⟨_, hg.mem_filled_iff.mpr ⟨Array.mem_of_getElem? hcell, ht⟩, rfl, rfl⟩

end WellFormed

/-! ### Entering records -/

/-- The record of a cell. -/
def recordOf (c : Cell) : Record := ⟨c.name, some c.text⟩

/-- The record of a cell applies exactly if the cell lies inside the grid. -/
theorem applies_recordOf_iff {c : Cell} (hname : ofName? c.name = some c.position) :
    (recordOf c).Applies h ↔ h.Contains c.position := by
  have hplace : h.place? (recordOf c).name = _ := place?_of_ofName? hname
  rw [Record.Applies, hplace]
  by_cases hin : h.Contains c.position <;> simp [recordOf, hin]

/-- The report of loading cells counts those inside the grid and those outside it. -/
theorem snd_load_cells {cells : List Cell} (hh : h.WellFormed)
    (hname : ∀ c ∈ cells, ofName? c.name = some c.position) :
    (h.load (cells.map recordOf)).2 = ⟨(cells.filter fun c => h.Contains c.position).length,
      (cells.filter fun c => ¬ h.Contains c.position).length⟩ := by
  rw [snd_load hh, List.countP_map, List.countP_map, List.countP_eq_length_filter,
    List.countP_eq_length_filter]
  congr 2
  · exact List.filter_congr fun c hc => decide_eq_decide.mpr (applies_recordOf_iff (hname c hc))
  · exact List.filter_congr fun c hc => decide_eq_decide.mpr
      (not_congr (applies_recordOf_iff (hname c hc)))

/-- A file is loaded onto a grid or refused, whatever it holds. -/
theorem loadFile_cases (hg : g.WellFormed) (folder : Folder) (file : String) :
    (∃ h report, g.loadFile folder file = .ok (h, report) ∧ h.WellFormed ∧ h.rows = g.rows ∧
      h.columns = g.columns) ∨ ∃ e, g.loadFile folder file = .error e := by
  rcases hread : folder.read file with e | bytes
  · exact Or.inr ⟨_, by simp only [loadFile, hread]; rfl⟩
  rcases hdoc : Document.ofBytes? bytes with _ | records
  · exact Or.inr ⟨.document, by simp [loadFile, hread, readDocument, hdoc, Except.mapError, bind,
      Except.bind]⟩
  · refine Or.inl ⟨_, (g.load records).2, ?_, wellFormed_load hg records⟩
    simp [loadFile, hread, readDocument, hdoc, Except.mapError, bind, Except.bind]

/-- What the records of cells make of a grid: those inside it get their texts and the values that
these have among the texts up to their own, and nothing else changes. -/
structure Loaded (h : Grid) (cells : List Cell) (h' : Grid) : Prop where
  wellFormed : h'.WellFormed
  rows : h'.rows = h.rows
  columns : h'.columns = h.columns
  frame : ∀ p, (∀ c ∈ cells, c.position ≠ p) → h'.textAt p = h.textAt p ∧ h'.valueAt p = h.valueAt p
  settled : ∀ c ∈ cells, h.Contains c.position → h'.textAt c.position = c.text ∧
    Means h.rows h.columns (fun q => if c.position.Precedes q then h.textAt q
      else h'.textAt q) c.text
      (h'.valueAt c.position)

namespace Loaded

variable {h₁ h' : Grid} {c : Cell} {cells : List Cell}

theorem nil (hh : h.WellFormed) : Loaded h [] h :=
  ⟨hh, rfl, rfl, fun _ _ => ⟨rfl, rfl⟩, fun _ hc => absurd hc List.not_mem_nil⟩

/-- A cell inside the grid is entered, and the cells after it find its text there. -/
theorem cons_of_entered (he : Entered h h₁ c.position c.text) (hblank : h.textAt c.position = "")
    (ht : c.text ≠ "") (hfirst : ∀ d ∈ cells, c.position.Precedes d.position)
    (hl : Loaded h₁ cells h') :
    Loaded h (c :: cells) h' := by
  have ht₁ : ∀ q, q ≠ c.position → h₁.textAt q = h.textAt q :=
    fun q hq => by rw [he.textAt, if_neg hq]
  obtain ⟨htc, hvc⟩ := hl.frame c.position fun d hd => (hfirst d hd).ne.symm
  refine ⟨hl.wellFormed, hl.rows.trans he.rows, hl.columns.trans he.columns, ?_, ?_⟩
  · intro p hp
    have hpc : p ≠ c.position := fun e => hp c List.mem_cons_self e.symm
    obtain ⟨ht, hv⟩ := hl.frame p fun d hd => hp d (List.mem_cons_of_mem c hd)
    exact ⟨ht.trans (ht₁ p hpc), hv.trans (he.frame p (Or.inl hpc))⟩
  · intro d hd hin
    rcases List.mem_cons.mp hd with rfl | hd
    -- the cell itself: nothing after it is there yet, and nothing before it changes any more
    · refine ⟨by rw [htc, he.textAt, if_pos rfl], ?_⟩
      rw [hvc]
      refine (he.settled (by rw [hblank]; exact ht.symm)).congr fun q _ => ?_
      split
      · next hq => exact ht₁ q hq.ne.symm
      · next hq =>
        refine ((hl.frame q fun e heq hpos => hq ?_).1).symm
        rw [← hpos]
        exact hfirst e heq
    · have hin₁ : h₁.Contains d.position := by rwa [Contains, he.rows, he.columns]
      obtain ⟨ht, hm⟩ := hl.settled d hd hin₁
      refine ⟨ht, ?_⟩
      rw [he.rows, he.columns] at hm
      refine hm.congr fun q _ => ?_
      split
      · next hq => exact ht₁ q ((hfirst d hd).trans hq).ne.symm
      · rfl

theorem cons_of_not_contains (hp : ¬ h.Contains c.position) (hl : Loaded h cells h') :
    Loaded h (c :: cells) h' := by
  refine ⟨hl.wellFormed, hl.rows, hl.columns, ?_, ?_⟩
  · intro p hpos
    exact hl.frame p fun d hd => hpos d (List.mem_cons_of_mem c hd)
  · intro d hd hin
    rcases List.mem_cons.mp hd with rfl | hd
    · exact absurd hin hp
    · exact hl.settled d hd hin

end Loaded

/-- **What loading makes of cells in their order** that find no text in their places. -/
theorem loaded_cells {cells : List Cell} (hh : h.WellFormed)
    (hsorted : cells.Pairwise fun c d => c.position.Precedes d.position)
    (hname : ∀ c ∈ cells, ofName? c.name = some c.position)
    (hblank : ∀ c ∈ cells, h.textAt c.position = "" ∧ c.text ≠ "") :
    Loaded h cells ((Record.calls (cells.map recordOf)).foldl Call.after h) := by
  induction cells generalizing h with
  | nil => exact .nil hh
  | cons c cells ih =>
    obtain ⟨hfirst, hrest⟩ := List.pairwise_cons.mp hsorted
    have hname' : ∀ d ∈ cells, ofName? d.name = some d.position := fun d hd =>
      hname d (List.mem_cons_of_mem c hd)
    have hblank' : ∀ d ∈ cells, h.textAt d.position = "" ∧ d.text ≠ "" := fun d hd =>
      hblank d (List.mem_cons_of_mem c hd)
    have hc := hname c List.mem_cons_self
    have hcalls : (Record.calls ((c :: cells).map recordOf)).foldl Call.after h =
        (Record.calls (cells.map recordOf)).foldl Call.after
          ((Call.setNamed c.name c.text).after h) := rfl
    rw [hcalls]
    by_cases hin : h.Contains c.position
    · have he := Call.entered_setNamed hh hc hin c.text
      obtain ⟨hc0, hct⟩ := hblank c List.mem_cons_self
      refine Loaded.cons_of_entered he hc0 hct hfirst (ih he.wellFormed hrest hname' fun d hd => ?_)
      obtain ⟨h0, ht⟩ := hblank' d hd
      exact ⟨by rw [he.textAt, if_neg (hfirst d hd).ne.symm, h0], ht⟩
    · have hnone : h.place? c.name = none := by rw [place?_of_ofName? hc, if_neg hin]
      rw [Call.after_setNamed_of_place?_eq_none hnone]
      exact Loaded.cons_of_not_contains hin (ih hh hrest hname' hblank')

/-! ### Saving and loading -/

/-- The names of the cells that are saved can be read, and their texts hold no line ends but line
feeds. -/
structure Storable (g : Grid) : Prop where
  name : ∀ c ∈ g.filled, c.position.row + 1 < Text.wordSize ∧ c.position.column + 1 < Text.wordSize
  unbroken : ∀ c ∈ g.filled, Document.Unbroken c.text.toList

theorem Storable.written (hg : g.Storable) : ∀ r ∈ g.records, ∃ text, Document.Written r text := by
  intro r hr
  obtain ⟨c, hc, rfl⟩ := List.mem_map.mp hr
  exact ⟨c.text, rfl, hg.unbroken c hc, fun d hd => isAlphanum_of_mem_name hd⟩

/-- **A saved grid is loaded** into a blank one of any size. -/
theorem exists_loaded (hg : g.WellFormed) (hst : g.Storable) (rows columns : ℕ) :
    ∃ h, (empty rows columns).readDocument (Text.encode g.document) =
        .ok (h, ⟨(g.filled.filter fun c => c.position.Inside rows columns).length,
          (g.filled.filter fun c => ¬ c.position.Inside rows columns).length⟩) ∧
      h.WellFormed ∧ h.rows = rows ∧ h.columns = columns ∧
      ∀ p, p.Inside rows columns → h.textAt p = g.textAt p ∧
        Means rows columns (fun q => if p.Precedes q then "" else h.textAt q) (h.textAt p)
          (h.valueAt p) := by
  have hsorted : g.filled.Pairwise fun c d => c.position.Precedes d.position :=
    hg.pairwise_cells.sublist List.filter_sublist
  have hname : ∀ c ∈ g.filled, ofName? c.name = some c.position := fun c hc =>
    ofName?_name (hst.name c hc).1 (hst.name c hc).2
  have hl := loaded_cells (wellFormed_empty rows columns) hsorted hname fun c hc =>
    ⟨textAt_empty _ _ _, (hg.textAt_of_mem_filled hc).2.2⟩
  have hreport := snd_load_cells (wellFormed_empty rows columns) hname
  have hrecords : g.records = g.filled.map recordOf := rfl
  rw [← hrecords] at hreport
  rw [← fst_load, ← hrecords] at hl
  refine ⟨((empty rows columns).load g.records).1, ?_, hl.wellFormed, hl.rows, hl.columns,
    fun p hp => ?_⟩
  · rw [readDocument, document, Document.ofBytes?_markup hst.written]
    exact congrArg (fun report => Except.ok (((empty rows columns).load g.records).1,
      report)) hreport
  · by_cases ht : g.textAt p = ""
    · obtain ⟨ht', hv'⟩ := hl.frame p fun c hc hpos => by
        obtain ⟨-, h1, h2⟩ := hg.textAt_of_mem_filled hc
        rw [hpos, ht] at h1
        exact h2 h1.symm
      rw [textAt_empty] at ht'
      rw [(wellFormed_empty rows columns).valueAt_eq_empty (textAt_empty rows columns p)] at hv'
      rw [ht', hv', ht]
      exact ⟨rfl, .plain (by simp)⟩
    · obtain ⟨c, hc, rfl, hct⟩ := hg.exists_mem_filled ht
      obtain ⟨ht', hm⟩ := hl.settled c hc hp
      rw [ht']
      refine ⟨hct, hm.congr fun q _ => ?_⟩
      rw [textAt_empty]

/-- A saved grid is loaded as a whole into a blank one of its own size, and has the same texts
then. -/
theorem exists_loaded_of_size (hg : g.WellFormed) (hst : g.Storable) :
    ∃ h, (empty g.rows g.columns).readDocument (Text.encode g.document) =
      .ok (h, ⟨g.filled.length, 0⟩) ∧
      h.WellFormed ∧ h.rows = g.rows ∧ h.columns = g.columns ∧ (∀ p, h.textAt p = g.textAt p) ∧
      ∀ p, g.Contains p →
        Means g.rows g.columns (fun q => if p.Precedes q then "" else g.textAt q) (g.textAt p)
          (h.valueAt p) := by
  obtain ⟨h, hload, hwf, hr, hk, hcells⟩ := exists_loaded hg hst g.rows g.columns
  have htext : ∀ q, h.textAt q = g.textAt q := fun q => by
    by_cases hq : q.Inside g.rows g.columns
    · exact (hcells q hq).1
    · have hq' : ¬ h.Contains q := by rwa [Contains, hr, hk]
      rw [textAt_of_not_contains hq', textAt_of_not_contains (g := g) hq]
  have hin : ∀ c ∈ g.filled, c.position.Inside g.rows g.columns :=
    fun c hc => (hg.textAt_of_mem_filled hc).1
  have hall : (g.filled.filter fun c => c.position.Inside g.rows g.columns) = g.filled :=
    List.filter_eq_self.mpr (by simpa using hin)
  have hnone : (g.filled.filter fun c => ¬ c.position.Inside g.rows g.columns) = [] :=
    List.filter_eq_nil_iff.mpr (by simpa using hin)
  rw [hall, hnone] at hload
  refine ⟨h, hload, hwf, hr, hk, htext, fun p hp => ?_⟩
  have hm := (hcells p hp).2
  simp only [htext] at hm
  exact hm

/-- **Loading again changes nothing.** A grid whose values are those that loading gives is loaded
from its own document into a blank one of its size as it is. -/
theorem readDocument_document (hg : g.WellFormed) (hst : g.Storable)
    (hv : ∀ p, g.Contains p →
      Means g.rows g.columns (fun q => if p.Precedes q then "" else g.textAt q) (g.textAt p)
        (g.valueAt p)) :
    (empty g.rows g.columns).readDocument (Text.encode g.document) =
      .ok (g, ⟨g.filled.length, 0⟩) := by
  obtain ⟨h, hload, hwf, hr, hk, htext, hm⟩ := exists_loaded_of_size hg hst
  have hsame : h = g := ext_tables hwf hg hr hk (fun p _ => htext p) fun p hp => by
    rw [Contains, hr, hk] at hp
    exact (hm p hp).eq (hv p hp)
  rw [hload, hsame]

/-- **Saving and loading, for any pair of sizes.** Take a grid that a history of calls has left on a
blank one, with texts whose only line ends are line feeds, and a blank grid of any other size. The
document of the first is read into the second; the report counts the saved cells inside it and those
outside it. Every cell of the second grid then has the text of the first one's cell there, and is
blank if there is none; its value is that of its text among the texts up to its own, row by row.
Saving the second grid and loading it into a blank one of its size leaves it as it is. -/
theorem load_saved_sheet (rows columns rows' columns' : ℕ) (hr : rows < Text.wordSize)
    (hc : columns < Text.wordSize) (calls : List Call)
    (htexts : ∀ p, Document.Unbroken ((run rows columns calls).textAt p).toList) :
    ∃ h, (empty rows' columns').readDocument (Text.encode (run rows columns calls).document) =
        .ok (h, ⟨((run rows columns calls).filled.filter fun c =>
          c.position.Inside rows' columns').length,
          ((run rows columns calls).filled.filter fun c =>
            ¬ c.position.Inside rows' columns').length⟩) ∧
      (∀ p, p.Inside rows' columns' →
        h.cell? p = some ⟨p, (run rows columns calls).textAt p, h.valueAt p⟩ ∧
        (¬ p.Inside rows columns → h.cell? p = some (.blank p)) ∧
        Means rows' columns' (fun q => if p.Precedes q then "" else h.textAt q) (h.textAt p)
          (h.valueAt p)) ∧
      (empty rows' columns').readDocument (Text.encode h.document) =
        .ok (h, ⟨h.filled.length, 0⟩) := by
  set g := run rows columns calls with hgdef
  have hg : g.WellFormed := wellFormed_run rows columns calls
  obtain ⟨hgr, hgc⟩ : g.rows = rows ∧ g.columns = columns := size_run rows columns calls
  have hst : g.Storable := by
    refine ⟨fun c hcell => ?_, fun c hcell => ?_⟩
    · obtain ⟨hin, -⟩ := hg.textAt_of_mem_filled hcell
      rw [Contains, hgr, hgc] at hin
      omega
    · obtain ⟨-, ht, -⟩ := hg.textAt_of_mem_filled hcell
      exact ht ▸ htexts c.position
  obtain ⟨h, hload, hwf, hr', hc', hcells⟩ := exists_loaded hg hst rows' columns'
  have hst' : h.Storable := by
    have hpos : ∀ c ∈ h.filled, c.text = g.textAt c.position ∧ c.text ≠ "" := fun c hcell => by
      obtain ⟨hin, ht, hne⟩ := hwf.textAt_of_mem_filled hcell
      rw [Contains, hr', hc'] at hin
      exact ⟨ht.symm.trans (hcells _ hin).1, hne⟩
    refine ⟨fun c hcell => ?_, fun c hcell => ?_⟩
    · obtain ⟨ht, hne⟩ := hpos c hcell
      obtain ⟨d, hd, hdpos, -⟩ := hg.exists_mem_filled (ht ▸ hne)
      exact hdpos ▸ hst.name d hd
    · rw [(hpos c hcell).1]
      exact htexts _
  refine ⟨h, hload, fun p hp => ?_, ?_⟩
  · obtain ⟨ht, hm⟩ := hcells p hp
    have hcell : h.cell? p = some ⟨p, h.textAt p, h.valueAt p⟩ :=
      hwf.cell?_eq (by rw [Contains, hr', hc']; exact hp)
    refine ⟨ht ▸ hcell, fun hout => ?_, hm⟩
    have hempty : h.textAt p = "" := by
      rw [ht, textAt, cell?_of_not_contains (by rwa [Contains, hgr, hgc])]
      rfl
    rw [hcell, hwf.valueAt_eq_empty hempty, hempty]
    rfl
  · have := readDocument_document hwf hst' fun p hp => by
      rw [Contains, hr', hc'] at hp
      rw [hr', hc']
      exact (hcells p hp).2
    rwa [hr', hc'] at this

/-- A formula whose target is left behind, because it lies outside the grid loaded into, is its own
value. -/
theorem load_formula_without_target :
    (∀ p, Document.Unbroken
      ((run 1 2 [.setNamed "B1" "a<b", .setNamed "a1" "=B1"]).textAt p).toList) ∧
    ∃ h, (empty 1 1).readDocument
        (Text.encode (run 1 2 [.setNamed "B1" "a<b", .setNamed "a1" "=B1"]).document) =
          .ok (h, ⟨1, 1⟩) ∧
      h.cell? ⟨0, 0⟩ = some ⟨⟨0, 0⟩, "=B1", "=B1"⟩ := by
  have htexts : ∀ p, Document.Unbroken
      ((run 1 2 [.setNamed "B1" "a<b", .setNamed "a1" "=B1"]).textAt p).toList := fun p => by
    have hb : ofName? "B1" = some ⟨0, 1⟩ := by decide
    have ha : ofName? "a1" = some ⟨0, 0⟩ := by decide
    have h : given 1 2 p [.setNamed "B1" "a<b", .setNamed "a1" "=B1"] ∈ ["", "a<b", "=B1"] := by
      by_cases h0 : p = ⟨0, 0⟩
      · subst h0; decide
      by_cases h1 : p = ⟨0, 1⟩
      · subst h1; decide
      · simp [given, Call.textFor?, Call.entry?, hb, ha, Ne.symm h0, Ne.symm h1]
    rw [textAt_run]
    generalize given 1 2 p _ = text at h ⊢
    simp only [List.mem_cons, List.not_mem_nil, or_false] at h
    rcases h with rfl | rfl | rfl <;> simp [Document.Unbroken]
  have hg : (run 1 2 [.setNamed "B1" "a<b", .setNamed "a1" "=B1"]).textAt ⟨0, 0⟩ =
    "=B1" := by decide
  obtain ⟨h, hload, hcells, -⟩ := load_saved_sheet 1 2 1 1 (by decide) (by decide) _ htexts
  obtain ⟨hcell, -, hm⟩ := hcells ⟨0, 0⟩ (by decide)
  rw [hg] at hcell
  have ht : h.textAt ⟨0, 0⟩ = "=B1" := by rw [textAt, hcell]; rfl
  have hv : h.valueAt ⟨0, 0⟩ = "=B1" := by
    rw [ht] at hm
    refine hm.eq (.unresolved (by decide) fun p hp hr => ?_)
    have hq : Refers "=B1" ⟨0, 1⟩ := ⟨'B', ['1'], by decide⟩
    rw [hr.eq hq] at hp
    exact absurd hp (by decide)
  exact ⟨htexts, h, hload, by rw [hcell, hv]⟩

end Grid

end Worksheet
