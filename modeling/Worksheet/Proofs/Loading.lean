import Worksheet.Proofs.RecordCalls
import Worksheet.Proofs.WrittenDocument

/-! # Records loaded onto a grid

Loading enters the texts of records onto the grid that is there. A record gives its text to the cell
that its name denotes, in any spelling (`Record.Gives`). A cell to which no record gives a text
stays as it is (`cell?_calls`), and a cell to which several do has the text of the last one
(`exists_cell?_calls`). A record counts as applied if it gives a text to some cell, whether or not
the text is new there (`snd_load`). -/

namespace Worksheet

open Position

/-! ### What a record does -/

namespace Record

/-- The record gives a text to the cell at a position of the grid, which its name denotes. -/
def Gives (g : Grid) (r : Record) (p : Position) (text : String) : Prop :=
  r.text = some text ∧ g.place? r.name = some p

/-- The record has a text, and its name denotes a cell of the grid. -/
def Applies (g : Grid) (r : Record) : Prop := r.text.isSome = true ∧ (g.place? r.name).isSome = true

instance (g : Grid) (r : Record) : Decidable (r.Applies g) := inferInstanceAs (Decidable (_ ∧ _))

variable {g g' : Grid} {r : Record}

theorem gives_congr (hr : g'.rows = g.rows) (hc : g'.columns = g.columns) {p : Position}
    {text : String} : r.Gives g' p text ↔ r.Gives g p text := by
  rw [Gives, Gives, Grid.place?_congr hr hc]

theorem applies_congr (hr : g'.rows = g.rows) (hc : g'.columns = g.columns) : r.Applies g' ↔
    r.Applies g := by
  rw [Applies, Applies, Grid.place?_congr hr hc]

theorem calls_append (records records' : List Record) :
    calls (records ++ records') = calls records ++ calls records' :=
  List.filterMap_append

end Record

namespace Grid

variable {g : Grid}

/-- A record is entered exactly if it applies. -/
theorem isSome_enter?_iff (hg : g.WellFormed) (r : Record) : (g.enter? r).isSome = true ↔
    r.Applies g := by
  rcases r with ⟨name, _ | text⟩
  · simp [enter?, Record.Applies]
  · rcases hname : g.place? name with _ | p
    · simp [enter?, Record.Applies, hname]
    · obtain ⟨-, hp⟩ := place?_eq_some_iff.mp hname
      obtain ⟨g', change, hs, -⟩ := exists_entered hg hp text
      simp [enter?, Record.Applies, hname, hs]

theorem snd_loadStep (hg : g.WellFormed) (report : LoadReport) (r : Record) :
    (loadStep (g, report) r).2 =
      if r.Applies g then ⟨report.applied + 1, report.skipped⟩
        else ⟨report.applied, report.skipped + 1⟩ := by
  have happlies := isSome_enter?_iff hg r
  rcases henter : g.enter? r with _ | g'
  · rw [if_neg (by simp [← happlies, henter])]
    simp only [loadStep, henter]
  · rw [if_pos (by simp [← happlies, henter])]
    simp only [loadStep, henter]

/-- Each record is counted once, by the size of the grid alone. -/
theorem snd_foldl_loadStep (hg : g.WellFormed) (records : List Record) (report : LoadReport) :
    (records.foldl loadStep (g, report)).2 =
      ⟨report.applied + records.countP fun r => r.Applies g,
        report.skipped + records.countP fun r => ¬ r.Applies g⟩ := by
  induction records generalizing g report with
  | nil => rfl
  | cons r records ih =>
    have hstep : (loadStep (g, report) r).1 = (Record.calls [r]).foldl Call.after g :=
      foldl_loadStep [r] g report
    obtain ⟨hwf, hr, hc⟩ := wellFormed_foldl_after hg (Record.calls [r])
    rw [← hstep] at hwf hr hc
    have hrest := ih hwf (loadStep (g, report) r).2
    simp only [Record.applies_congr hr hc] at hrest
    refine hrest.trans ?_
    rw [snd_loadStep hg, List.countP_cons, List.countP_cons]
    by_cases happlies : r.Applies g
    · simp [happlies, Nat.add_assoc, Nat.add_comm 1]
    · simp [happlies, Nat.add_assoc, Nat.add_comm 1]

/-- **The report of loading.** -/
theorem snd_load (hg : g.WellFormed) (records : List Record) :
    (g.load records).2 =
      ⟨records.countP fun r => r.Applies g, records.countP fun r => ¬ r.Applies g⟩ := by
  rw [load, snd_foldl_loadStep hg, Nat.zero_add, Nat.zero_add]

/-! ### What becomes of a cell -/

/-- A call that addresses another cell leaves this one as it is. -/
theorem cell?_setNamed (hg : g.WellFormed) {name : String} {p : Position}
    (hp : g.place? name ≠ some p)
    (text : String) : ((Call.setNamed name text).after g).cell? p = g.cell? p := by
  rcases hplace : g.place? name with _ | q
  · rw [Call.after_setNamed_of_place?_eq_none hplace]
  · obtain ⟨hname, hq⟩ := place?_eq_some_iff.mp hplace
    have hne : p ≠ q := by
      rintro rfl
      exact hp hplace
    exact (Call.entered_setNamed hg hname hq text).cell?_eq hg hne

/-- **A cell to which no record gives a text stays as it is.** -/
theorem cell?_calls (hg : g.WellFormed) {records : List Record} {p : Position}
    (hp : ∀ r ∈ records, ∀ text, ¬ r.Gives g p text) :
    ((Record.calls records).foldl Call.after g).cell? p = g.cell? p := by
  induction records generalizing g with
  | nil => rfl
  | cons r records ih =>
    have hrest : ∀ s ∈ records, ∀ text, ¬ s.Gives g p text :=
      fun s hs => hp s (List.mem_cons_of_mem r hs)
    rcases r with ⟨name, _ | text⟩
    · exact ih hg hrest
    · have hstep := cell?_setNamed hg (fun h => hp _ List.mem_cons_self text ⟨rfl, h⟩) text
      obtain ⟨hr, hc⟩ := Call.size_after hg (.setNamed name text)
      rw [← hstep]
      refine ih (Call.wellFormed_after hg _) fun s hs t => ?_
      rw [Record.gives_congr hr hc]
      exact hrest s hs t

/-- **A cell has the text of the last record that gives one to it.** -/
theorem exists_cell?_calls (hg : g.WellFormed) {before later : List Record} {r : Record}
    {p : Position}
    {text : String} (hr : r.Gives g p text) (hlast : ∀ s ∈ later, ∀ t, ¬ s.Gives g p t) :
    ∃ c, ((Record.calls (before ++ r :: later)).foldl Call.after g).cell? p = some c ∧
      c.text = text := by
  obtain ⟨name, t⟩ := r
  obtain ⟨rfl, hplace⟩ := hr
  obtain ⟨hg₁, hr₁, hc₁⟩ := wellFormed_foldl_after hg (Record.calls before)
  set g₁ := (Record.calls before).foldl Call.after g
  rw [← place?_congr hr₁ hc₁] at hplace
  obtain ⟨hname, hp⟩ := place?_eq_some_iff.mp hplace
  have he := Call.entered_setNamed hg₁ hname hp text
  set g₂ := (Call.setNamed name text).after g₁
  have hcalls : (Record.calls (before ++ ⟨name, some text⟩ :: later)).foldl Call.after g =
      (Record.calls later).foldl Call.after g₂ := by
    rw [Record.calls_append, List.foldl_append]
    rfl
  have hframe : ((Record.calls later).foldl Call.after g₂).cell? p = g₂.cell? p := by
    refine cell?_calls he.wellFormed fun s hs t => ?_
    rw [Record.gives_congr (he.rows.trans hr₁) (he.columns.trans hc₁)]
    exact hlast s hs t
  have hp₂ : g₂.Contains p := by rwa [Contains, he.rows, he.columns]
  refine ⟨⟨p, g₂.textAt p, g₂.valueAt p⟩, ?_, ?_⟩
  · rw [hcalls, hframe]
    exact he.wellFormed.cell?_eq hp₂
  · show g₂.textAt p = text
    rw [he.textAt, if_pos rfl]

/-! ### Documents -/

/-- **Reading a document onto a grid**, in whatever state calls and documents have left it. A
document that is accepted makes of the grid what the calls do that enter the texts of its records,
one after the other and passing over those that fail. As applied are counted the records that have a
text and name a cell, as skipped all others. A cell that applied records name has the text of the
last of them, and a cell that none names stays as it is, with its text and its value. A document
that is refused changes nothing. -/
theorem read_onto_grid {g : Grid} (hg : g.Reachable) (bytes : ByteArray) :
    (∀ records, Document.ofBytes? bytes = some records →
      ∃ g' report, g.readDocument bytes = .ok (g', report) ∧
        g' = (Record.calls records).foldl Call.after g ∧
        report.applied = (records.countP fun r => r.Applies g) ∧
        report.skipped = (records.countP fun r => ¬ r.Applies g) ∧
        report.applied + report.skipped = records.length ∧
        (∀ before r later p text, records = before ++ r :: later → r.Gives g p text →
          (∀ s ∈ later, ∀ t, ¬ s.Gives g p t) → ∃ c, g'.cell? p = some c ∧ c.text = text) ∧
        (∀ p, (∀ r ∈ records, ∀ text, ¬ r.Gives g p text) → g'.cell? p = g.cell? p)) ∧
    (Document.ofBytes? bytes = none →
      g.readDocument bytes = .error .document ∧ (Step.read bytes).after g = g) := by
  have hwf := hg.wellFormed
  constructor
  · intro records hrecords
    have hreport := snd_load hwf records
    refine ⟨(g.load records).1, (g.load records).2, ?_, fst_load g records, ?_, ?_, ?_, ?_, ?_⟩
    · rw [readDocument, hrecords]
    · rw [hreport]
    · rw [hreport]
    · rw [hreport]
      have hall := List.length_eq_countP_add_countP (fun r => decide (Record.Applies g r))
        (l := records)
      simpa using hall.symm
    · rintro before r later p text rfl hr hlast
      rw [fst_load]
      exact exists_cell?_calls hwf hr hlast
    · intro p hp
      rw [fst_load]
      exact cell?_calls hwf hp
  · intro hnone
    have herror : g.readDocument bytes = .error .document := by rw [readDocument, hnone]
    exact ⟨herror, by rw [Step.after, herror]⟩

/-- A grid of one row and two columns with a text in each. -/
def sampleSheet : Grid := reach 1 2 [.call (.setNamed "A1" "old"), .call (.setNamed "B1" "kept")]

/-- Records of its first cell under two names, and one of a cell that it does not have. -/
def sampleRecords : List Record := [⟨"a01", some "<new>"⟩, ⟨"C1", some "lost"⟩, ⟨"A1", some "=B1"⟩]

/-- Of two names of one cell the later one decides, a record outside the grid is skipped, and the
cell beside stays. -/
theorem later_record_decides :
    sampleSheet.Reachable ∧
      ∃ bytes g', Document.ofBytes? bytes = some sampleRecords ∧
        sampleSheet.readDocument bytes = .ok (g', ⟨2, 1⟩) ∧
        (∃ c, g'.cell? ⟨0, 0⟩ = some c ∧ c.text = "=B1") ∧
          g'.cell? ⟨0, 1⟩ = sampleSheet.cell? ⟨0, 1⟩ := by
  have hreach : sampleSheet.Reachable := ⟨_, _, _, rfl⟩
  have hwritten : ∀ r ∈ sampleRecords, ∃ text, Document.Written r text := by
    intro r hr
    simp only [sampleRecords, List.mem_cons, List.not_mem_nil, or_false] at hr
    rcases hr with rfl | rfl | rfl <;> exact ⟨_, rfl, by simp [Document.Unbroken],
      List.all_eq_true.mp (by decide)⟩
  have hread := Document.ofBytes?_markup hwritten
  obtain ⟨g', ⟨applied, skipped⟩, hload, -, happlied, hskipped, -, hlast, hframe⟩ :=
    (read_onto_grid hreach _).1 _ hread
  have hfirst : sampleSheet.place? "A1" = some ⟨0, 0⟩ := by decide
  obtain rfl : applied = 2 := happlied.trans (by decide)
  obtain rfl : skipped = 1 := hskipped.trans (by decide)
  refine ⟨hreach, _, g', hread, hload, ?_, hframe ⟨0, 1⟩ fun r hr text h => ?_⟩
  · exact hlast (sampleRecords.take 2) ⟨"A1", some "=B1"⟩ [] ⟨0, 0⟩ "=B1" rfl
      ⟨rfl, hfirst⟩ (by simp)
  · have hother : ∀ r ∈ sampleRecords, sampleSheet.place? r.name ≠ some ⟨0, 1⟩ := by decide
    exact hother r hr h.2

end Grid

end Worksheet
