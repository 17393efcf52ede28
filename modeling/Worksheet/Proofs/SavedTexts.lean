import Worksheet.Proofs.Addresses
import Worksheet.Proofs.SavedSheet

/-! # What a saved sheet keeps

The cells of a grid that are written are those with a text, so the document of a grid is told by its
texts alone (`filled_eq`, `document_congr`): two grids that differ in values, or in size, are saved
alike. Whether it can be read back is told by the texts as well (`storable_iff`), and entering one
more text keeps that (`Entered.storable`).

Loading the document into a blank grid of the same size enters the texts again, row by row. The
outcome is `replay g`, whose texts are those of `g` (`readDocument_replay`). -/

namespace Worksheet

open Position

namespace Grid

variable {g g' h : Grid} {p : Position} {text : String}

/-! ### Written cells -/

/-- The positions of a grid of the given size, row by row. -/
def places (rows columns : ℕ) : List Position :=
  (List.range (rows * columns)).map fun i => ⟨i / columns, i % columns⟩

/-- The positions with a text, row by row. -/
def textPlaces (g : Grid) : List Position :=
  (places g.rows g.columns).filter fun p => g.textAt p ≠ ""

/-- The cells of a grid, told by its two tables. -/
theorem WellFormed.toList_cells (hg : g.WellFormed) :
    g.cells.toList = (places g.rows g.columns).map fun p => ⟨p, g.textAt p, g.valueAt p⟩ := by
  refine List.ext_getElem (by simp [places, hg.size]) fun i hi _ => ?_
  simp only [Array.length_toList] at hi
  obtain ⟨hpos, hin⟩ := hg.position_getElem hi
  obtain ⟨-, hcell⟩ := hg.cell?_position (Array.getElem_mem hi)
  rw [hpos, hg.cell?_eq hin] at hcell
  simp only [Array.getElem_toList, places, List.getElem_map, List.getElem_range]
  exact (Option.some.inj hcell).symm

/-- **The cells that are written** are those with a text. -/
theorem WellFormed.filled_eq (hg : g.WellFormed) :
    g.filled = g.textPlaces.map fun p => ⟨p, g.textAt p, g.valueAt p⟩ := by
  have hblank : ∀ p, (!Cell.isBlank ⟨p, g.textAt p, g.valueAt p⟩) =
      decide (g.textAt p ≠ "") := fun p => by
    by_cases ht : g.textAt p = ""
    · simp [Cell.isBlank, ht, hg.valueAt_eq_empty ht]
    · simp [Cell.isBlank, ht]
  rw [filled, hg.toList_cells, List.filter_map, textPlaces]
  congr 1
  exact List.filter_congr fun p _ => hblank p

theorem WellFormed.mem_textPlaces_iff (hg : g.WellFormed) : p ∈ g.textPlaces ↔ g.textAt p ≠ "" := by
  constructor
  · intro hp
    exact of_decide_eq_true (List.mem_filter.mp hp).2
  · intro ht
    obtain ⟨c, hc, rfl, -⟩ := hg.exists_mem_filled ht
    rw [hg.filled_eq] at hc
    obtain ⟨p, hp, rfl⟩ := List.mem_map.mp hc
    exact hp

theorem WellFormed.pairwise_textPlaces (hg : g.WellFormed) : g.textPlaces.Pairwise Precedes := by
  have hplaces := hg.pairwise_cells
  rw [hg.toList_cells, List.pairwise_map] at hplaces
  exact hplaces.filter _

/-- The order of the positions with a text is told by the texts, whatever the size. -/
theorem textPlaces_congr (hg : g.WellFormed) (hh : h.WellFormed)
    (ht : ∀ p, g.textAt p = h.textAt p) : g.textPlaces = h.textPlaces := by
  have hnodup := hg.pairwise_textPlaces.imp fun hp => hp.ne
  have hnodup' := hh.pairwise_textPlaces.imp fun hp => hp.ne
  have hmem : ∀ p, p ∈ g.textPlaces ↔ p ∈ h.textPlaces := fun p => by
    rw [hg.mem_textPlaces_iff, hh.mem_textPlaces_iff, ht]
  refine List.Perm.eq_of_pairwise (fun p q _ _ hpq hqp => ?_) hg.pairwise_textPlaces
    hh.pairwise_textPlaces
    ((List.perm_ext_iff_of_nodup hnodup hnodup').mpr hmem)
  exact absurd rfl (hpq.trans hqp).ne

/-- **Grids with the same texts are saved alike.** -/
theorem document_congr (hg : g.WellFormed) (hh : h.WellFormed) (ht : ∀ p, g.textAt p = h.textAt p) :
    g.document = h.document := by
  have hrecords : g.records = h.records := by
    rw [records, records, hg.filled_eq, hh.filled_eq, textPlaces_congr hg hh ht, funext ht]
    simp only [List.map_map]
    rfl
  rw [document, document, hrecords]

/-- The records of a document, told by the texts. -/
theorem WellFormed.mem_records_iff (hg : g.WellFormed) {p : Position} {text : String} :
    ⟨p.name, some text⟩ ∈ g.records ↔ g.textAt p = text ∧ text ≠ "" := by
  rw [records, List.mem_map]
  constructor
  · rintro ⟨c, hc, hrecord⟩
    obtain ⟨hname, htext⟩ := Record.mk.inj hrecord
    obtain ⟨-, ht, hne⟩ := hg.textAt_of_mem_filled hc
    obtain rfl : c.position = p := name_injective hname
    obtain rfl := Option.some.inj htext
    exact ⟨ht, hne⟩
  · rintro ⟨rfl, hne⟩
    obtain ⟨c, hc, rfl, ht⟩ := hg.exists_mem_filled hne
    exact ⟨c, hc, by rw [ht]; rfl⟩

/-! ### Texts that can be read back -/

theorem WellFormed.storable_iff (hg : g.WellFormed) :
    g.Storable ↔ ∀ p, g.textAt p ≠ "" → (p.row + 1 < Text.wordSize ∧ p.column + 1 < Text.wordSize) ∧
      Document.Unbroken (g.textAt p).toList := by
  constructor
  · intro hst p ht
    obtain ⟨c, hc, rfl, hct⟩ := hg.exists_mem_filled ht
    exact ⟨hst.name c hc, hct ▸ hst.unbroken c hc⟩
  · intro h
    have hcell : ∀ c ∈ g.filled, g.textAt c.position = c.text ∧
        g.textAt c.position ≠ "" := fun c hc => by
      obtain ⟨-, ht, hne⟩ := hg.textAt_of_mem_filled hc
      exact ⟨ht, ht ▸ hne⟩
    exact ⟨fun c hc => (h c.position (hcell c hc).2).1, fun c hc =>
      (hcell c hc).1 ▸ (h c.position (hcell c hc).2).2⟩

theorem storable_empty (rows columns : ℕ) : (empty rows columns).Storable :=
  (wellFormed_empty rows columns).storable_iff.mpr fun p ht =>
    absurd (textAt_empty rows columns p) ht

/-- A grid with texts of one that can be read back, and one more, can be read back. -/
theorem WellFormed.storable_of_textAt (hg' : g'.WellFormed) (hg : g.WellFormed) (hst : g.Storable)
    {name : String} (hname : ofName? name = some p) (htext : Document.Unbroken (g'.textAt p).toList)
    (hrest : ∀ q, q ≠ p → g'.textAt q ≠ "" → g'.textAt q = g.textAt q) : g'.Storable := by
  refine hg'.storable_iff.mpr fun q hq => ?_
  by_cases hqp : q = p
  · subst hqp
    exact ⟨lt_wordSize_of_ofName? hname, htext⟩
  · have ht := hrest q hqp hq
    rw [ht] at hq ⊢
    exact hg.storable_iff.mp hst q hq

theorem Entered.storable (hg : g.WellFormed) (hst : g.Storable) (he : Entered g g' p text)
    {name : String}
    (hname : ofName? name = some p) (htext : Document.Unbroken text.toList) : g'.Storable := by
  have hp : g'.textAt p = text := by rw [he.textAt, if_pos rfl]
  refine he.wellFormed.storable_of_textAt hg hst hname (hp ▸ htext) fun q hq _ => ?_
  rw [he.textAt, if_neg hq]

theorem Storable.ofBytes?_document (hst : g.Storable) :
    Document.ofBytes? (Text.encode g.document) = some g.records :=
  Document.ofBytes?_markup hst.written

/-! ### Texts entered again -/

/-- The grid of the same size with the texts entered again, row by row. -/
def replay (g : Grid) : Grid := run g.rows g.columns (g.filled.map fun c => .setNamed c.name c.text)

theorem calls_records (g : Grid) : Record.calls g.records = g.filled.map fun c =>
    .setNamed c.name c.text := by
  simp [Record.calls, Record.call?, records, List.filterMap_map, Function.comp_def]

/-- **A saved grid is loaded into a blank one of its size** by entering its texts again, and has the
same texts then. -/
theorem readDocument_replay (hg : g.WellFormed) (hst : g.Storable) :
    (empty g.rows g.columns).readDocument (Text.encode g.document) =
      .ok (g.replay, ⟨g.filled.length, 0⟩) ∧
      g.replay.WellFormed ∧ g.replay.rows = g.rows ∧ g.replay.columns = g.columns ∧
      ∀ p, g.replay.textAt p = g.textAt p := by
  obtain ⟨h, hload, hwf, hr, hc, ht, -⟩ := exists_loaded_of_size hg hst
  obtain rfl : h = g.replay := by
    have hread : (empty g.rows g.columns).readDocument (Text.encode g.document) =
        .ok ((empty g.rows g.columns).load g.records) := by
      rw [readDocument, hst.ofBytes?_document]
    rw [hread] at hload
    have hgrid := congrArg Prod.fst (Except.ok.inj hload)
    rw [fst_load, calls_records] at hgrid
    exact hgrid.symm
  exact ⟨hload, hwf, hr, hc, ht⟩

end Grid

end Worksheet
