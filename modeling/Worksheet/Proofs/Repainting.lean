import Worksheet.Proofs.CommandLine
import Worksheet.Proofs.RecordCalls
import Worksheet.Proofs.Screen

/-! # Painting the screen anew

The screen may go stale: notices may come of changes that were never made, and the grid may change
without one. What a session keeps whatever happens is the shape of its screen, which has the size of
the grid (`Shaped`, `shaped_after`). A value may therefore be written at the position of any cell
without leaving the screen: `paint?`, which writes nowhere else, never fails for cells of the grid
(`repaint?_eq`, `clearCell?_eq`). Painting the screen anew writes every place of it, from whatever
was shown before. `repainting_restores_screen` is the statement on all sessions that calls lead
to. -/

namespace Worksheet

namespace Session

variable {s s' t t' : Session} {p q : Position} {name : String}

/-! ### Writing on the screen -/

/-- The position lies on the screen. -/
def OnScreen (s : Session) (p : Position) : Prop := ∃ row ∈ s.screen[p.row]?, p.column < row.size

instance (s : Session) (p : Position) : Decidable (s.OnScreen p) :=
  inferInstanceAs (Decidable (∃ row ∈ s.screen[p.row]?, p.column < row.size))

/-- The session with a value written on the screen, which fails at a position that does not lie on
it. -/
def paint? (s : Session) (p : Position) (value : String) : Option Session :=
  if s.OnScreen p then some (s.paint p value) else none

/-- The session with nothing on its screen. -/
def wiped (s : Session) : Session :=
  { s with screen := .replicate s.grid.rows (.replicate s.grid.columns "") }

/-- The session with the values of all cells written on an empty screen, one after the other. -/
def repaint? (s : Session) : Option Session :=
  s.grid.cells.toList.foldlM (fun t c => t.paint? c.position c.value) s.wiped

/-- The session with a cell emptied, where the screen is written at the position that the cell
has. -/
def clearCell? (s : Session) (name : String) : Except Grid.Error (Option Session) := do
  let s ← s.edit name ""
  return match s.grid.cellNamed? name with
    | some c => s.paint? c.position ""
    | none => some s

theorem Fits.onScreen_iff (hs : s.Fits) : s.OnScreen p ↔ s.grid.Contains p := by
  refine ⟨?_, fun hp => ?_⟩
  · rintro ⟨row, hrow, hc⟩
    obtain ⟨hr, rfl⟩ := Array.getElem?_eq_some_iff.mp hrow
    rw [hs.columns _ (Array.getElem_mem hr)] at hc
    exact ⟨hs.rows ▸ hr, hc⟩
  · obtain ⟨row, hrow, hc⟩ := hs.exists_row hp
    exact ⟨row, hrow, hc⟩

theorem Fits.paint?_eq (hs : s.Fits) (hp : s.grid.Contains p) (value : String) :
    s.paint? p value = some (s.paint p value) := if_pos (hs.onScreen_iff.mpr hp)

/-- Nothing is painted outside the screen. -/
theorem paint_of_not_onScreen (h : ¬ s.OnScreen p) (value : String) : s.paint p value = s := by
  have hscreen : s.screen.modify p.row (·.modify p.column fun _ => value) = s.screen := by
    refine Array.ext Array.size_modify fun i hi hi' => ?_
    rw [Array.getElem_modify]
    split
    · next hrow =>
      subst hrow
      have hout : ¬ p.column < (s.screen[p.row]).size :=
        fun hc => h ⟨_, Array.getElem?_eq_getElem hi', hc⟩
      refine Array.ext Array.size_modify fun j hj hj' => ?_
      rw [Array.getElem_modify, if_neg fun he : p.column = j => hout (he ▸ hj')]
    · rfl
  rw [paint, hscreen]

theorem shown_of_not_contains (hs : s.Fits) (hp : ¬ s.grid.Contains p) : s.shown p = "" := by
  unfold shown
  rcases hrow : s.screen[p.row]? with _ | row
  · rfl
  · have hc : row.size ≤ p.column := not_lt.mp fun hc => hp (hs.onScreen_iff.mp ⟨row, hrow, hc⟩)
    rw [Option.bind_some, Array.getElem?_eq_none hc]
    rfl

/-- A screen of the size of the grid is told by what it shows. -/
theorem Fits.screen_eq (ht : t.Fits) (ht' : t'.Fits) (hgrid : t.grid = t'.grid)
    (h : ∀ p, t.shown p = t'.shown p) : t.screen = t'.screen := by
  refine Array.ext (by rw [ht.rows, ht'.rows, hgrid]) fun i hi hi' => ?_
  refine Array.ext ?_ fun j hj hj' => ?_
  · rw [ht.columns _ (Array.getElem_mem hi), ht'.columns _ (Array.getElem_mem hi'), hgrid]
  · simpa [shown, hi, hi', hj, hj'] using h ⟨i, j⟩

/-! ### Painting all cells -/

/-- What writing the values of cells makes of a session: each is shown at the position of its cell,
and nothing else changes. -/
structure Painted (t t' : Session) (cells : List Cell) : Prop where
  fits : t'.Fits
  frame : t' = { t with screen := t'.screen }
  shown : ∀ q, t'.shown q = if ∃ c ∈ cells, c.position = q then t.grid.valueAt q else t.shown q

theorem painted_paint {c : Cell} (ht : t.Fits) (hc : t.grid.cell? c.position = some c) :
    Painted t (t.paint c.position c.value) [c] where
  fits := fits_paint ht _ _
  frame := rfl
  shown q := by
    have hvalue : t.grid.valueAt c.position = c.value := by rw [Grid.valueAt, hc]; rfl
    rw [shown_paint ht (Grid.contains_of_cell? hc)]
    by_cases hq : q = c.position
    · subst hq
      simp [hvalue]
    · simp [hq, Ne.symm hq]

theorem Painted.trans {t'' : Session} {cells cells' : List Cell} (h : Painted t t' cells)
    (h' : Painted t' t'' cells') : Painted t t'' (cells ++ cells') where
  fits := h'.fits
  frame := by rw [h'.frame, h.frame]
  shown q := by
    have hgrid : t'.grid = t.grid := by rw [h.frame]
    rw [h'.shown, h.shown, hgrid]
    -- a position written twice gets the same value again, since writing leaves the grid
    by_cases hq : ∃ c ∈ cells, c.position = q
    · have hboth : ∃ c ∈ cells ++ cells', c.position = q := by
        obtain ⟨c, hc, hpos⟩ := hq
        exact ⟨c, List.mem_append_left _ hc, hpos⟩
      rw [if_pos hq, if_pos hboth, ite_self]
    · rw [if_neg hq]
      refine if_congr ⟨?_, ?_⟩ rfl rfl
      · rintro ⟨c, hc, hq⟩
        exact ⟨c, List.mem_append_right _ hc, hq⟩
      · rintro ⟨c, hc, hpos⟩
        exact ⟨c, (List.mem_append.mp hc).resolve_left fun h => hq ⟨c, h, hpos⟩, hpos⟩

/-- **Writing the values of cells of the grid** never leaves the screen. -/
theorem exists_painted {cells : List Cell} (ht : t.Fits)
    (h : ∀ c ∈ cells, t.grid.cell? c.position = some c) :
    ∃ t', cells.foldlM (fun t c => t.paint? c.position c.value) t = some t' ∧
      Painted t t' cells := by
  induction cells generalizing t with
  | nil => exact ⟨t, rfl, ht, rfl, fun q => by simp⟩
  | cons c cells ih =>
    have hc := h c List.mem_cons_self
    have hfirst := painted_paint ht hc
    obtain ⟨t', hrest, hpainted⟩ := ih hfirst.fits fun d hd => h d (List.mem_cons_of_mem c hd)
    refine ⟨t', ?_, hfirst.trans hpainted⟩
    rw [List.foldlM_cons, ht.paint?_eq (Grid.contains_of_cell? hc)]
    exact hrest

theorem fits_wiped (s : Session) : s.wiped.Fits where
  rows := Array.size_replicate
  columns row hrow := by
    obtain ⟨-, rfl⟩ := Array.mem_replicate.mp hrow
    exact Array.size_replicate

/-- **Painting the screen anew writes the value of every cell at its position**, and never leaves
the screen. -/
theorem repaint?_eq (hg : s.grid.WellFormed) : s.repaint? = some s.refresh := by
  have hcells : ∀ c ∈ s.grid.cells.toList, s.wiped.grid.cell? c.position = some c := fun c hc =>
    (hg.cell?_position (Array.mem_toList_iff.mp hc)).2
  obtain ⟨t, hpaint, ht⟩ := exists_painted (fits_wiped s) hcells
  have hgrid : t.grid = s.grid := by rw [ht.frame]; rfl
  -- every position inside the grid has a cell, so that all of the screen is written
  have hshown : ∀ p, t.shown p = s.refresh.shown p := fun p => by
    rw [shown_refresh, ht.shown]
    by_cases hp : s.grid.Contains p
    · obtain ⟨c, hc, hpos⟩ := hg.exists_cell hp
      rw [Grid.cell?_of_contains hp] at hc
      exact if_pos ⟨c, Array.mem_toList_iff.mpr (Array.mem_of_getElem? hc), hpos⟩
    · have hnone : ¬ ∃ c ∈ s.grid.cells.toList, c.position = p := by
        rintro ⟨c, hc, rfl⟩
        exact hp (hg.cell?_position (Array.mem_toList_iff.mp hc)).1
      rw [if_neg hnone, shown_of_not_contains (fits_wiped s) hp, Grid.valueAt,
        Grid.cell?_of_not_contains hp]
      rfl
  have hscreen := ht.fits.screen_eq (fits_refresh s) hgrid hshown
  rw [repaint?, hpaint, ht.frame, hscreen]
  rfl

/-! ### The shape of the screen -/

/-- What a session keeps whatever happens: a well-formed grid, and a screen of its size. -/
structure Shaped (s : Session) : Prop where
  grid : s.grid.WellFormed
  fits : s.Fits

theorem shaped_refresh (hg : s.grid.WellFormed) : s.refresh.Shaped := ⟨hg, fits_refresh s⟩

theorem Shaped.paint (hs : s.Shaped) (p : Position) (value : String) : (s.paint p value).Shaped :=
  ⟨hs.grid, fits_paint hs.fits p value⟩

theorem Shaped.edit {text : String} (hs : s.Shaped) (h : s.edit name text = .ok s') :
    s'.Shaped := by
  rcases hplace : s.grid.place? name with _ | p
  · exact nomatch (edit_of_place?_eq_none hplace text).symm.trans h
  · obtain ⟨t, ht, he⟩ := exists_edited hs.grid hs.fits hplace text
    obtain rfl := Except.ok.inj (ht.symm.trans h)
    exact ⟨he.entered.wellFormed, he.fits⟩

/-- **Emptying a cell writes at the position that the cell has**, which never leaves the screen. -/
theorem clearCell?_eq (hs : s.Shaped) (name : String) :
    s.clearCell? name = (s.clearCell name).map some := by
  rcases hedit : s.edit name "" with e | s'
  · simp [clearCell?, clearCell, hedit, bind, Except.bind, Except.map]
  · have hs' := hs.edit hedit
    have hcell : s'.grid.cellNamed? name = (s'.grid.place? name).bind s'.grid.cell? := rfl
    rw [clearCell_of_edit hedit]
    rcases hplace : s'.grid.place? name with _ | p
    · simp [clearCell?, hedit, hcell, hplace, bind, Except.bind, pure, Except.pure, Except.map]
    · obtain ⟨-, hp⟩ := Grid.place?_eq_some_iff.mp hplace
      obtain ⟨c, hc, rfl⟩ := hs'.grid.exists_cell hp
      simp [clearCell?, hedit, hcell, hplace, hc, hs'.fits.paint?_eq hp, bind, Except.bind, pure,
        Except.pure, Except.map]

theorem Shaped.clearCell (hs : s.Shaped) (h : s.clearCell name = .ok s') : s'.Shaped := by
  obtain ⟨t, hedit, ht⟩ := exists_of_bind_eq_ok h
  obtain rfl := Except.ok.inj ht
  have hshaped := hs.edit hedit
  rcases t.grid.place? name with _ | p
  · exact hshaped
  · exact hshaped.paint p ""

theorem Shaped.fillRow {row : ℕ} (hs : s.Shaped) (h : s.fillRow row = .ok s') : s'.Shaped := by
  obtain ⟨t, htext, hformula⟩ := exists_of_bind_eq_ok h
  exact (hs.edit htext).edit hformula

theorem Shaped.loaded (hs : s.Shaped) (result : Except StorageError (LoadReport × String)) :
    (s.loaded result).Shaped := by
  refine ⟨?_, fits_loaded s result⟩
  rcases result with e | ⟨report, file⟩ <;> exact hs.grid

theorem Shaped.outcome (hs : s.Shaped) {op : Operation} (h : op.outcome s = .ok s') :
    s'.Shaped := by
  cases op with
  | edit name text => exact hs.edit h
  | clearCell name => exact hs.clearCell h
  | clearAll =>
    cases h
    exact shaped_refresh (s := { s with grid := s.grid.clear }) (Grid.wellFormed_clear hs.grid)
  | refresh =>
    cases h
    exact shaped_refresh hs.grid
  | fillDemo =>
    have hfill : s.fillDemo = .ok s' := h
    unfold fillDemo at hfill
    split at hfill
    · cases hfill
      exact hs
    · exact of_foldlM_eq_ok (fun _ _ _ ht hrow => ht.fillRow hrow) hs hfill
  | saved result =>
    cases h
    rcases result with e | file <;> exact ⟨hs.grid, hs.fits.rows, hs.fits.columns⟩
  | load folder file =>
    cases h
    unfold Session.load
    rcases Grid.loadFile_cases hs.grid folder file with ⟨g, report, hok, hg, -, -⟩ | ⟨e, herr⟩
    · rw [hok]
      exact ⟨hg, fits_loaded { s with grid := g } _⟩
    · rw [herr]
      exact hs.loaded _

/-! ### Calls in any order -/

/-- What may happen to a session: one of its operations, a notice of any change at all, a report of
any attempt to load, and a step of its grid that it does not hear of. -/
inductive Move where
  | operation (op : Operation)
  | notice (change : Change)
  | loaded (result : Except StorageError (LoadReport × String))
  | grid (step : Grid.Step)

/-- The session after a move. -/
def Move.after (s : Session) : Move → Session
  | operation op => op.after s
  | notice change => s.notice change
  | loaded result => s.loaded result
  | grid step => { s with grid := step.after s.grid }

/-- A session that moves lead to, from a session on any grid. -/
def Reachable (s : Session) : Prop :=
  ∃ (g : Grid) (moves : List Move), g.Reachable ∧ moves.foldl Move.after (ofGrid g) = s

/-- **A move keeps the shape of the screen.** -/
theorem shaped_after (hs : s.Shaped) (m : Move) : (m.after s).Shaped := by
  cases m with
  | operation op =>
    have hafter : (Move.operation op).after s = op.after s := rfl
    rcases ho : op.outcome s with e | s'
    · rwa [hafter, Operation.after, ho]
    · rw [hafter, Operation.after, ho]
      exact hs.outcome ho
  | notice change => exact hs.paint change.position change.value
  | loaded result => exact hs.loaded result
  | grid step =>
    have hstep := Grid.wellFormed_foldl_after hs.grid step.calls
    rw [← step.after_eq_foldl] at hstep
    obtain ⟨hg, hr, hc⟩ := hstep
    exact ⟨hg, hs.fits.rows.trans hr.symm, fun row hrow => (hs.fits.columns row hrow).trans hc.symm⟩

theorem Reachable.shaped (hs : s.Reachable) : s.Shaped := by
  obtain ⟨g, moves, hg, rfl⟩ := hs
  induction moves using List.reverseRecOn with
  | nil => exact shaped_refresh (s := ofGrid g) hg.wellFormed
  | append_singleton moves m ih =>
    rw [List.foldl_append]
    exact shaped_after ih m

/-! ### Stale screens -/

/-- The screen shows what the grid has: the value of every cell, and nothing outside the grid. -/
structure Shows (s : Session) : Prop where
  cell : ∀ p, s.grid.Contains p → ∃ c, s.grid.cell? p = some c ∧ s.shown p = c.value
  outside : ∀ p, ¬ s.grid.Contains p → s.shown p = ""

theorem shows_refresh (hg : s.grid.WellFormed) : s.refresh.Shows where
  cell p hp := by
    obtain ⟨c, hc, -⟩ := hg.exists_cell hp
    refine ⟨c, hc, ?_⟩
    rw [shown_refresh, Grid.valueAt, hc]
    rfl
  outside p hp := shown_of_not_contains (fits_refresh s) hp

/-- **Painting the screen anew makes up for everything.** Take a session that moves lead to, notices
of changes that were never made and changes of the grid without notice among them. Its screen has
the size of its grid, so that the values that are written when the screen is painted anew, or when a
cell is emptied, all find their places on it. If the screen is painted anew, all cells are emptied,
or a file has been loaded or not, the screen shows what the grid has. A notice of a change outside
the grid does nothing; one inside it changes what is shown at its position, and nothing else. -/
theorem repainting_restores_screen (hs : s.Reachable) :
    (s.screen.size = s.grid.rows ∧ ∀ row ∈ s.screen, row.size = s.grid.columns) ∧
    s.repaint? = some s.refresh ∧ (∀ name, s.clearCell? name = (s.clearCell name).map some) ∧
    s.refresh.Shows ∧ s.clearAll.Shows ∧ (∀ result, (s.loaded result).Shows) ∧
    (∀ change, ¬ s.grid.Contains change.position → s.notice change = s) ∧
    ∀ change, s.grid.Contains change.position →
      s.notice change = { s with screen := (s.notice change).screen } ∧ (s.notice change).Fits ∧
        ∀ p, (s.notice change).shown p = if p = change.position then change.value
          else s.shown p := by
  have h := hs.shaped
  refine ⟨⟨h.fits.rows, h.fits.columns⟩, repaint?_eq h.grid, clearCell?_eq h, shows_refresh h.grid,
    ?_, ?_, ?_, ?_⟩
  · exact shows_refresh (s := { s with grid := s.grid.clear }) (Grid.wellFormed_clear h.grid)
  · rintro (e | ⟨report, file⟩)
    · exact shows_refresh (s := { s with status := _ }) h.grid
    · exact shows_refresh (s := { s with file := _, status := _ }) h.grid
  · exact fun change hout => paint_of_not_onScreen (fun hon => hout (h.fits.onScreen_iff.mp hon)) _
  · exact fun change hin => ⟨rfl, fits_paint h.fits _ _, shown_paint h.fits hin change.value⟩

/-- A session on a grid of one row, with a text that it has not heard of and a notice that is
wrong. -/
def staleSession : Session :=
  [.grid (.call (.setNamed "A1" "x")), .notice ⟨⟨0, 0⟩, "y"⟩].foldl Move.after
    (ofGrid (.reach 1 2 []))

/-- A wrong value is shown until the screen is painted anew. -/
theorem stale_screen_restored : staleSession.Reachable ∧ staleSession.shown ⟨0, 0⟩ = "y" ∧
    staleSession.refresh.Shows ∧ staleSession.refresh.shown ⟨0, 0⟩ = "x" := by
  have hs : staleSession.Reachable := ⟨_, _, ⟨1, 2, [], rfl⟩, rfl⟩
  obtain ⟨-, -, -, hshows, -⟩ := repainting_restores_screen hs
  obtain ⟨c, hc, hshown⟩ := hshows.cell ⟨0, 0⟩ (by decide)
  refine ⟨hs, by decide, hshows, hshown.trans ?_⟩
  have hcell : staleSession.refresh.grid.cell? ⟨0, 0⟩ = some ⟨⟨0, 0⟩, "x", "x"⟩ := by decide
  rw [hcell] at hc
  exact congrArg Cell.value (Option.some.inj hc).symm

end Session

end Worksheet
