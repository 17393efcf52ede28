import Worksheet.Proofs.History
import Worksheet.Storage

/-! # Records as calls

Loading a record enters its text under its name, or does nothing if the record has no text or names
no cell. So does the call of the record, where there is one: a grid after loading records is the
grid after their calls (`fst_load`). A grid that is edited by calls and documents has therefore a
history of calls only (`reach_eq_run`), and what is known of histories holds of it. -/

namespace Worksheet

open Position

/-- The call that enters the text of a record under its name. -/
def Record.call? (r : Record) : Option Call := r.text.map (.setNamed r.name ·)

/-- The calls that enter the texts of records, in the order of the records. -/
def Record.calls (records : List Record) : List Call := records.filterMap Record.call?

namespace Grid

/-- Loading a record that has a text is the call that enters it. -/
theorem fst_loadStep_text (g : Grid) (report : LoadReport) (name text : String) :
    (loadStep (g, report) ⟨name, some text⟩).1 = (Call.setNamed name text).after g := by
  rcases hplace : g.place? name with _ | p
  · rw [Call.after_setNamed_of_place?_eq_none hplace]
    simp [loadStep, enter?, hplace]
  · obtain ⟨hname, -⟩ := place?_eq_some_iff.mp hplace
    rcases hset : g.setText p text with e | ⟨g', change⟩ <;>
      simp [loadStep, enter?, hplace, Call.after, Call.outcome, setTextNamed, hname, hset]

theorem foldl_loadStep (records : List Record) (g : Grid) (report : LoadReport) :
    (records.foldl loadStep (g, report)).1 = (Record.calls records).foldl Call.after g := by
  induction records generalizing g report with
  | nil => rfl
  | cons r records ih =>
    rcases r with ⟨name, _ | text⟩
    · exact ih g _
    · rw [List.foldl_cons]
      have hstep := fst_loadStep_text g report name text
      have hcalls : Record.calls (⟨name, some text⟩ :: records) =
          .setNamed name text :: Record.calls records := rfl
      rw [hcalls, List.foldl_cons, ← hstep]
      exact ih _ _

/-- **Loading records is making their calls.** -/
theorem fst_load (g : Grid) (records : List Record) :
    (g.load records).1 = (Record.calls records).foldl Call.after g :=
  foldl_loadStep records g ⟨0, 0⟩

theorem wellFormed_load {g : Grid} (hg : g.WellFormed) (records : List Record) :
    (g.load records).1.WellFormed ∧ (g.load records).1.rows = g.rows ∧
      (g.load records).1.columns = g.columns := by
  rw [fst_load]
  exact wellFormed_foldl_after hg _

/-! ### Documents in a history -/

/-- A step of a grid: a call, or a document that is read onto it. -/
inductive Step where
  | call (c : Call)
  | read (bytes : ByteArray)

namespace Step

/-- The grid after a step. A call that fails and a document that is refused leave it as it is. -/
def after (g : Grid) : Step → Grid
  | call c => c.after g
  | read bytes =>
    match g.readDocument bytes with
    | .ok (g', _) => g'
    | .error _ => g

/-- The calls of a step. Those of a document are the calls of its records. -/
def calls : Step → List Call
  | call c => [c]
  | read bytes => (Document.ofBytes? bytes).elim [] Record.calls

theorem after_eq_foldl (g : Grid) (s : Step) : s.after g = s.calls.foldl Call.after g := by
  rcases s with c | bytes
  · rfl
  · rcases h : Document.ofBytes? bytes with _ | records
    · simp [after, calls, readDocument, h]
    · simp only [after, calls, readDocument, h, Option.elim_some]
      exact fst_load g records

end Step

/-- The grid after steps on a blank one. -/
def reach (rows columns : ℕ) (steps : List Step) : Grid :=
  steps.foldl Step.after (.empty rows columns)

/-- **A grid after steps is one after calls.** -/
theorem reach_eq_run (rows columns : ℕ) (steps : List Step) :
    reach rows columns steps = run rows columns (steps.flatMap Step.calls) := by
  rw [reach, run, List.foldl_flatMap]
  simp only [← Step.after_eq_foldl]

theorem wellFormed_reach (rows columns : ℕ) (steps : List Step) :
    (reach rows columns steps).WellFormed ∧ (reach rows columns steps).rows = rows ∧
      (reach rows columns steps).columns = columns := by
  rw [reach_eq_run]
  exact ⟨wellFormed_run rows columns _, size_run rows columns _⟩

/-- A grid that steps lead to. Every grid of a program is one: there is no other way to make a grid
than to start with a blank one. -/
def Reachable (g : Grid) : Prop := ∃ rows columns steps, reach rows columns steps = g

theorem Reachable.wellFormed {g : Grid} (hg : g.Reachable) : g.WellFormed := by
  obtain ⟨rows, columns, steps, rfl⟩ := hg
  exact (wellFormed_reach rows columns steps).1

theorem Reachable.after {g : Grid} (hg : g.Reachable) (step : Step) : (step.after g).Reachable := by
  obtain ⟨rows, columns, steps, rfl⟩ := hg
  exact ⟨rows, columns, steps ++ [step], List.foldl_concat Step.after _ step steps⟩

theorem Reachable.foldl_after {g : Grid} (hg : g.Reachable) (calls : List Call) :
    (calls.foldl Call.after g).Reachable := by
  induction calls generalizing g with
  | nil => exact hg
  | cons c calls ih => exact ih (hg.after (.call c))

/-- **A text that is no formula is its own value**, whatever has happened since it was entered. -/
theorem Reachable.valueAt_of_head? {g : Grid} (hg : g.Reachable) {p : Position}
    (hp : (g.textAt p).toList.head? ≠ some '=') : g.valueAt p = g.textAt p := by
  obtain ⟨rows, columns, steps, rfl⟩ := hg
  rw [reach_eq_run] at hp ⊢
  rcases settled_run (steps.flatMap Step.calls) p with ⟨_, _, -, hmeans⟩ | ⟨-, htext, hvalue⟩
  · exact hmeans.eq (.plain hp)
  · rw [htext, hvalue]

end Grid

end Worksheet
