import Worksheet.Proofs.RecordCalls
import Worksheet.Proofs.Screen

/-! # One edit

A text is entered by the name of a cell in three ways: into a grid, into the grid of a session, and
as the empty text that clears a cell of a session. They look the name up differently and report a
refusal in different words, but accept the same names, and work on the grid alike. `Grid.Accepted`
says what an accepted text does to the grid, and `entering_by_name` puts the three together. -/

namespace Worksheet

open Position

namespace Grid

/-- What a grid becomes, and what notice is given, when a text is accepted at a position: the cell
there keeps its place and its name and has the text, every other cell stays as it is, and a notice
is given of a text that is new and not empty. The notice carries the place, the name and the value
that the cell has afterwards. -/
structure Accepted (g g' : Grid) (p : Position) (text : String) (change : Option Change)
    (old new : Cell) : Prop where
  rows : g'.rows = g.rows
  columns : g'.columns = g.columns
  frame : ∀ q, q ≠ p → g'.cell? q = g.cell? q
  before : g.cell? p = some old
  after : g'.cell? p = some new
  position : new.position = old.position
  name : new.name = old.name
  entered : new.text = text
  notice_iff : change.isSome = true ↔ old.text ≠ text ∧ text ≠ ""
  notice : ∀ n ∈ change, n.position = new.position ∧ n.name = new.name ∧ n.value = new.value

variable {g : Grid} {p : Position} {name : String}

/-- **A text is accepted at every cell of the grid.** -/
theorem exists_accepted (hg : g.WellFormed) (hp : g.Contains p) (text : String) :
    ∃ g' change old new, g.setText p text = .ok (g', change) ∧
      Accepted g g' p text change old new := by
  obtain ⟨g', change, hset, he, hchange⟩ := exists_entered hg hp text
  have hp' : g'.Contains p := by rwa [Contains, he.rows, he.columns]
  have htext : g'.textAt p = text := by rw [he.textAt, if_pos rfl]
  refine ⟨g', change, ⟨p, g.textAt p, g.valueAt p⟩, ⟨p, g'.textAt p, g'.valueAt p⟩, hset,
    he.rows, he.columns,
    fun q hq => he.cell?_eq hg hq, hg.cell?_eq hp, he.wellFormed.cell?_eq hp', rfl, rfl,
      htext, ?_, ?_⟩
  · rw [hchange]
    split
    · next h => exact iff_of_false (by simp) fun hn => h.elim hn.1 hn.2
    · next h => exact iff_of_true rfl (not_or.mp h)
  · intro n hn
    rw [hchange] at hn
    split at hn
    · exact absurd hn (by simp)
    · obtain rfl := Option.some.inj hn
      exact ⟨rfl, rfl, rfl⟩

end Grid

namespace Session

variable {s s' : Session} {g : Grid} {name text : String}

theorem grid_elim_paint (s : Session) (place : Option Position) (value : String) :
    (place.elim s (s.paint · value)).grid = s.grid := by
  rcases place with _ | p <;> rfl

/-- An edit of a session is that edit of its grid. -/
theorem grid_edit (h : s.edit name text = .ok s') :
    s'.grid = (Call.setNamed name text).after s.grid := by
  rcases hplace : s.grid.place? name with _ | p
  · rw [edit_of_place?_eq_none hplace] at h
    exact absurd h (by simp)
  rcases hset : s.grid.setText p text with e | ⟨g', change⟩
  · simp [edit, hplace, hset, bind, Except.bind] at h
  · rw [edit_of_setText hplace hset] at h
    rw [← Except.ok.inj h, grid_elim_notice, Call.after_setNamed_of_setText hplace hset]

theorem grid_clearCell (h : s.clearCell name = .ok s') :
    s'.grid = (Call.setNamed name "").after s.grid := by
  rcases hedit : s.edit name "" with e | t
  · simp [clearCell, hedit, bind, Except.bind] at h
  · rw [clearCell_of_edit hedit] at h
    rw [← Except.ok.inj h, grid_elim_paint, grid_edit hedit]

/-- An edit of a session succeeds at every cell of its grid. -/
theorem exists_edit (hg : s.grid.WellFormed) {p : Position} (hplace : s.grid.place? name = some p)
    (text : String) :
    ∃ s', s.edit name text = .ok s' ∧ s'.grid = (Call.setNamed name text).after s.grid := by
  obtain ⟨g', change, -, -, hset, -⟩ :=
    Grid.exists_accepted hg (Grid.place?_eq_some_iff.mp hplace).2 text
  have hedit := edit_of_setText hplace hset
  exact ⟨_, hedit, grid_edit hedit⟩

theorem exists_clearCell (hg : s.grid.WellFormed) {p : Position}
    (hplace : s.grid.place? name = some p) :
    ∃ s', s.clearCell name = .ok s' ∧ s'.grid = (Call.setNamed name "").after s.grid := by
  obtain ⟨s', hedit, -⟩ := exists_edit hg hplace ""
  have hclear := clearCell_of_edit hedit
  exact ⟨_, hclear, grid_clearCell hclear⟩

/-- **Entering by name.** Take a session on a grid that steps lead to. An address is accepted by the
grid, by an edit of the session and by clearing a cell of the session in one and the same case: if
it is read as a position inside the grid. Otherwise it is reported as an invalid reference, and the
grid and the session stay as they are. An accepted text does to the grid what `Accepted` says, and
the two operations of the session do just that to their grid. -/
theorem entering_by_name (hg : g.Reachable) (hs : s.grid = g) (name text : String) :
    ((∃ r, g.setTextNamed name text = .ok r) ↔ ∃ p, ofName? name = some p ∧ g.Contains p) ∧
    ((∃ s', s.edit name text = .ok s') ↔ ∃ p, ofName? name = some p ∧ g.Contains p) ∧
    ((∃ s', s.clearCell name = .ok s') ↔ ∃ p, ofName? name = some p ∧ g.Contains p) ∧
    (∀ e, g.setTextNamed name text = .error e →
      e = Grid.refusal name ∧ (Call.setNamed name text).after g = g) ∧
    (∀ e, s.edit name text = .error e →
      e = .invalidReference name ∧ (Operation.edit name text).after s = s) ∧
    (∀ e, s.clearCell name = .error e →
      e = .invalidReference name ∧ (Operation.clearCell name).after s = s) ∧
    (∀ g' change, g.setTextNamed name text = .ok (g', change) → ∃ p old new,
      ofName? name = some p ∧ Grid.Accepted g g' p text change old new) ∧
    (∀ s', s.edit name text = .ok s' → s'.grid = (Call.setNamed name text).after g) ∧
    ∀ s', s.clearCell name = .ok s' → s'.grid = (Call.setNamed name "").after g := by
  subst hs
  simp only [← Grid.place?_eq_some_iff]
  rcases hplace : s.grid.place? name with _ | p
  · have hset := Grid.setTextNamed_of_place?_eq_none hplace text
    have hedit := edit_of_place?_eq_none hplace text
    have hclear := clearCell_of_place?_eq_none hplace
    have hsame := Call.after_setNamed_of_place?_eq_none hplace text
    simp [hset, hedit, hclear, hsame, Operation.after, Operation.outcome]
  · obtain ⟨hname, hp⟩ := Grid.place?_eq_some_iff.mp hplace
    obtain ⟨g', change, old, new, hset, haccepted⟩ := Grid.exists_accepted hg.wellFormed hp text
    rw [← Grid.setTextNamed_of_place?_eq_some hplace] at hset
    obtain ⟨s₁, hedit, hgrid₁⟩ := exists_edit hg.wellFormed hplace text
    obtain ⟨s₂, hclear, hgrid₂⟩ := exists_clearCell hg.wellFormed hplace
    have hplaced : ∃ q, some p = some q := ⟨p, rfl⟩
    refine ⟨iff_of_true ⟨_, hset⟩ hplaced, iff_of_true ⟨_, hedit⟩ hplaced,
      iff_of_true ⟨_, hclear⟩ hplaced, ?_⟩
    simp only [hset, hedit, hclear, hname]
    refine ⟨by simp, by simp, by simp, ?_, ?_, ?_⟩
    · rintro _ _ ⟨⟩
      exact ⟨p, old, new, rfl, haccepted⟩
    · rintro _ ⟨⟩
      exact hgrid₁
    · rintro _ ⟨⟩
      exact hgrid₂

/-- A grid of one cell with a text in it. -/
def oneCell : Grid := .reach 1 1 [.call (.setNamed "A1" "x")]

/-- A formula that refers to its own cell is accepted there, and refused outside the grid. -/
theorem own_reference_accepted :
    oneCell.Reachable ∧ (ofGrid oneCell).grid = oneCell ∧
      (∃ s', (ofGrid oneCell).edit "a01" "=A1" = .ok s') ∧
      ¬ ∃ s', (ofGrid oneCell).edit "B1" "=A1" = .ok s' := by
  have hg : oneCell.Reachable := ⟨1, 1, _, rfl⟩
  have hs : (ofGrid oneCell).grid = oneCell := rfl
  obtain ⟨-, hinside, -⟩ := entering_by_name hg hs "a01" "=A1"
  obtain ⟨-, houtside, -⟩ := entering_by_name hg hs "B1" "=A1"
  refine ⟨hg, hs, hinside.mpr ⟨⟨0, 0⟩, by decide, by decide⟩, fun h => ?_⟩
  obtain ⟨p, hname, hp⟩ := houtside.mp h
  have hname' : ofName? "B1" = some ⟨0, 1⟩ := by decide
  obtain rfl := Option.some.inj (hname.symm.trans hname')
  exact absurd hp (by decide)

end Session
end Worksheet
