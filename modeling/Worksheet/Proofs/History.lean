import Mathlib.Data.List.Basic
import Mathlib.Data.List.Induction
import Worksheet.Proofs.GridState

/-! # Histories of a grid

A grid that starts blank is edited by calls, of which any may fail. What stands in it in the end is
told from the list of calls alone: the text of a cell is the one last given to it since the last
clearing (`given`, `textAt_run`), and its value is the one that text had in the grid right after the
last call that changed it (`LastChange`, `settled_run`). `history_determines_cells` is the statement
on the whole history.

`after_cases` says what one call can do; both tables follow from it by induction from the end of the
list. -/

namespace Worksheet

/-- A call that edits a grid. -/
inductive Call where
  | setNamed (name text : String)
  | set (p : Position) (text : String)
  | clearCell (p : Position)
  | clear
deriving DecidableEq, Repr

namespace Call

/-- The outcome of a call on a grid. -/
def outcome (g : Grid) : Call → Except Grid.Error (Grid × Option Change)
  | setNamed name text => g.setTextNamed name text
  | set p text => g.setText p text
  | clearCell p => g.clearCell p
  | clear => .ok (g.clear, none)

/-- The grid after a call. A call that fails leaves it as it is. -/
def after (g : Grid) (c : Call) : Grid :=
  match c.outcome g with
  | .ok (g', _) => g'
  | .error _ => g

/-- The position that a call addresses, and the text it passes for it. -/
def entry? : Call → Option (Position × String)
  | setNamed name text => (Position.ofName? name).map (·, text)
  | set p text => some (p, text)
  | clearCell p => some (p, "")
  | clear => none

/-- The text that a call gives to the cell at `X`, if it succeeds and addresses that cell. -/
def textFor? (rows columns : ℕ) (X : Position) (c : Call) : Option String :=
  match c.entry? with
  | some (p, text) => if p = X ∧ X.Inside rows columns then some text else none
  | none => none

/-! ### What one call does -/

variable {g : Grid} {c : Call}

theorem outcome_eq_setText {p : Position} {text : String} (h : c.entry? = some (p, text)) :
    c.outcome g = g.setText p text := by
  rcases c with ⟨name, t⟩ | ⟨q, t⟩ | q | _
  · obtain ⟨q, hq, he⟩ := Option.map_eq_some_iff.mp h
    obtain ⟨rfl, rfl⟩ := Prod.mk.inj he
    simp only [outcome, Grid.setTextNamed, hq]
  · obtain ⟨rfl, rfl⟩ := Prod.mk.inj (Option.some.inj h)
    rfl
  · obtain ⟨rfl, rfl⟩ := Prod.mk.inj (Option.some.inj h)
    rfl
  · exact absurd h.symm (Option.some_ne_none _)

theorem outcome_of_entry?_eq_none (h : c.entry? = none) :
    c = .clear ∨ ∃ e, c.outcome g = .error e := by
  rcases c with ⟨name, t⟩ | ⟨q, t⟩ | q | _
  · have hn : Position.ofName? name = none := Option.map_eq_none_iff.mp h
    exact Or.inr ⟨.invalidReference name, by simp only [outcome, Grid.setTextNamed, hn]⟩
  · exact absurd h (Option.some_ne_none _)
  · exact absurd h (Option.some_ne_none _)
  · exact Or.inl rfl

/-- **What a call does**: it clears the grid, or enters its text at the cell it addresses, or fails
and changes nothing. -/
theorem after_cases (hg : g.WellFormed) (c : Call) :
    (c = .clear ∧ c.after g = g.clear) ∨
    (∃ p text, c.entry? = some (p, text) ∧ g.Contains p ∧ Grid.Entered g (c.after g) p text) ∨
    (c ≠ .clear ∧ (∀ p text, c.entry? = some (p, text) → ¬ g.Contains p) ∧ c.after g = g ∧
      ∃ e, c.outcome g = .error e) := by
  rcases he : c.entry? with _ | ⟨p, text⟩
  · rcases outcome_of_entry?_eq_none (g := g) he with rfl | ⟨e, ho⟩
    · exact Or.inl ⟨rfl, rfl⟩
    · refine Or.inr (Or.inr ⟨?_, ?_, by simp only [after, ho], e, ho⟩)
      · rintro rfl
        exact absurd ho (by simp [outcome])
      · intro p text h
        exact absurd h (by simp)
  · have ho := outcome_eq_setText (g := g) he
    by_cases hp : g.Contains p
    · obtain ⟨g', change, hs, hent, -⟩ := Grid.exists_entered hg hp text
      have ha : c.after g = g' := by simp only [after, ho, hs]
      exact Or.inr (Or.inl ⟨p, text, rfl, hp, ha ▸ hent⟩)
    · have hs := Grid.setText_of_not_contains hp text
      refine Or.inr (Or.inr ⟨?_, ?_, by simp only [after, ho, hs], _, ho.trans hs⟩)
      · rintro rfl
        exact nomatch he
      · intro q t h
        obtain ⟨rfl, rfl⟩ := Prod.mk.inj (Option.some.inj h)
        exact hp

theorem after_setNamed_of_setText {name text : String} {p : Position} {g' : Grid}
    {change : Option Change}
    (hplace : g.place? name = some p) (hset : g.setText p text = .ok (g', change)) :
    (setNamed name text).after g = g' := by
  have ho : (setNamed name text).outcome g = .ok (g', change) :=
    (Grid.setTextNamed_of_place?_eq_some hplace text).trans hset
  rw [after, ho]

theorem entered_setNamed (hg : g.WellFormed) {name : String} {p : Position}
    (hname : Position.ofName? name = some p) (hp : g.Contains p) (text : String) :
    Grid.Entered g ((setNamed name text).after g) p text := by
  obtain ⟨g', change, hs, he, -⟩ := Grid.exists_entered hg hp text
  rw [after_setNamed_of_setText (Grid.place?_eq_some_iff.mpr ⟨hname, hp⟩) hs]
  exact he

/-- A name that denotes no cell of the grid has no effect. -/
theorem after_setNamed_of_place?_eq_none {name : String} (h : g.place? name = none)
    (text : String) : (setNamed name text).after g = g := by
  have ho : (setNamed name text).outcome g = .error (Grid.refusal name) :=
    Grid.setTextNamed_of_place?_eq_none h text
  rw [after, ho]

/-- **A call succeeds** if it clears the grid or addresses a cell of it. -/
theorem exists_outcome_iff (hg : g.WellFormed) :
    (∃ r, c.outcome g = .ok r) ↔
      c = .clear ∨ ∃ p text, c.entry? = some (p, text) ∧ p.Inside g.rows g.columns := by
  constructor
  · rintro ⟨r, hr⟩
    rcases after_cases hg c with ⟨hc, -⟩ | ⟨p, text, he, hp, -⟩ | ⟨-, -, -, e, ho⟩
    · exact Or.inl hc
    · exact Or.inr ⟨p, text, he, hp⟩
    · exact absurd (ho.symm.trans hr) (by simp)
  · rintro (rfl | ⟨p, text, he, hp⟩)
    · exact ⟨_, rfl⟩
    · obtain ⟨g', change, hs, -⟩ := Grid.exists_entered hg (p := p) hp text
      exact ⟨_, (outcome_eq_setText he).trans hs⟩

theorem wellFormed_after (hg : g.WellFormed) (c : Call) : (c.after g).WellFormed := by
  rcases after_cases hg c with ⟨-, h⟩ | ⟨p, text, -, -, h⟩ | ⟨-, -, h, -⟩
  · rw [h]; exact Grid.wellFormed_clear hg
  · exact h.wellFormed
  · rw [h]; exact hg

theorem size_after (hg : g.WellFormed) (c : Call) :
    (c.after g).rows = g.rows ∧ (c.after g).columns = g.columns := by
  rcases after_cases hg c with ⟨-, h⟩ | ⟨p, text, -, -, h⟩ | ⟨-, -, h, -⟩
  · rw [h]; exact ⟨rfl, rfl⟩
  · exact ⟨h.rows, h.columns⟩
  · rw [h]; exact ⟨rfl, rfl⟩

/-- The text at a position after a call. -/
theorem textAt_after (hg : g.WellFormed) (c : Call) (X : Position) :
    (c.after g).textAt X =
      if c = .clear then "" else (c.textFor? g.rows g.columns X).getD (g.textAt X) := by
  rcases after_cases hg c with ⟨rfl, h⟩ | ⟨p, text, he, hp, h⟩ | ⟨hc, hn, h, -⟩
  · rw [h, Grid.textAt_clear, if_pos rfl]
  · have hc : c ≠ .clear := by
      rintro rfl
      exact nomatch he
    rw [h.textAt, if_neg hc]
    simp only [textFor?, he]
    by_cases hX : X = p
    · subst hX
      have hin : X.Inside g.rows g.columns := hp
      rw [if_pos rfl, if_pos ⟨rfl, hin⟩]
      rfl
    · rw [if_neg hX, if_neg fun e => hX e.1.symm]
      rfl
  · rw [h, if_neg hc]
    unfold textFor?
    split
    · next p text he =>
      rw [if_neg fun e : p = X ∧ X.Inside g.rows g.columns => hn p text he (e.1 ▸ e.2)]
      rfl
    · rfl

/-- A call that leaves the text at a position leaves the value there. -/
theorem valueAt_after_of_textAt_eq (hg : g.WellFormed) {X : Position}
    (hX : (c.after g).textAt X = g.textAt X) : (c.after g).valueAt X = g.valueAt X := by
  rcases after_cases hg c with ⟨-, h⟩ | ⟨p, text, -, -, h⟩ | ⟨-, -, h, -⟩
  · have ht : g.textAt X = "" := by rw [← hX, h, Grid.textAt_clear]
    rw [hg.valueAt_eq_empty ht, (wellFormed_after hg c).valueAt_eq_empty (hX.trans ht)]
  · refine h.frame X ?_
    by_cases hp : X = p
    · subst hp
      rw [h.textAt, if_pos rfl] at hX
      exact Or.inr hX.symm
    · exact Or.inl hp
  · rw [h]

/-- A call that changes the text at a position settles the value there by the texts after it. -/
theorem means_after_of_textAt_ne (hg : g.WellFormed) {X : Position}
    (hX : (c.after g).textAt X ≠ g.textAt X) :
    Means g.rows g.columns (c.after g).textAt ((c.after g).textAt X) ((c.after g).valueAt X) := by
  rcases after_cases hg c with ⟨-, h⟩ | ⟨p, text, -, -, h⟩ | ⟨-, -, h, -⟩
  · have ht : (c.after g).textAt X = "" := by rw [h, Grid.textAt_clear]
    rw [ht, (wellFormed_after hg c).valueAt_eq_empty ht]
    exact .plain (by simp)
  · by_cases hp : X = p
    · subst hp
      have ht : (c.after g).textAt X = text := by rw [h.textAt, if_pos rfl]
      rw [ht] at hX ⊢
      exact h.settled hX.symm
    · rw [h.textAt, if_neg hp] at hX
      exact absurd rfl hX
  · rw [h] at hX
    exact absurd rfl hX

end Call

/-! ### What a history does -/

namespace Grid

/-- The grid after a history of calls on a blank one. -/
def run (rows columns : ℕ) (calls : List Call) : Grid :=
  calls.foldl Call.after (.empty rows columns)

variable {rows columns : ℕ}

theorem run_concat (calls : List Call) (c : Call) :
    run rows columns (calls ++ [c]) = c.after (run rows columns calls) := by
  simp [run]

/-- Calls keep a grid well-formed and of its size. -/
theorem wellFormed_foldl_after {g : Grid} (hg : g.WellFormed) (calls : List Call) :
    (calls.foldl Call.after g).WellFormed ∧ (calls.foldl Call.after g).rows = g.rows ∧
      (calls.foldl Call.after g).columns = g.columns := by
  induction calls generalizing g with
  | nil => exact ⟨hg, rfl, rfl⟩
  | cons c calls ih =>
    obtain ⟨hr, hc⟩ := Call.size_after hg c
    rw [List.foldl_cons, ← hr, ← hc]
    exact ih (Call.wellFormed_after hg c)

theorem wellFormed_run (rows columns : ℕ) (calls : List Call) :
    (run rows columns calls).WellFormed :=
  (wellFormed_foldl_after (wellFormed_empty rows columns) calls).1

theorem size_run (rows columns : ℕ) (calls : List Call) :
    (run rows columns calls).rows = rows ∧ (run rows columns calls).columns = columns :=
  (wellFormed_foldl_after (wellFormed_empty rows columns) calls).2

/-- The text given to the cell at `X` by the last call that succeeds and addresses it since the last
clearing, empty if there is none. -/
def given (rows columns : ℕ) (X : Position) (calls : List Call) : String :=
  ((calls.reverse.takeWhile (· ≠ .clear)).findSome? (Call.textFor? rows columns X)).getD ""

theorem given_concat (X : Position) (calls : List Call) (c : Call) :
    given rows columns X (calls ++ [c]) =
      if c = .clear then "" else (c.textFor? rows columns X).getD (given rows columns X calls) := by
  unfold given
  rw [List.reverse_append, List.reverse_singleton, List.singleton_append]
  by_cases hc : c = .clear
  · simp [hc]
  · rw [if_neg hc, List.takeWhile_cons_of_pos (by simpa using hc), List.findSome?_cons]
    rcases c.textFor? rows columns X with _ | text <;> rfl

/-- **The texts of a history.** -/
theorem textAt_run (calls : List Call) (X : Position) :
    (run rows columns calls).textAt X = given rows columns X calls := by
  induction calls using List.reverseRecOn with
  | nil => exact textAt_empty rows columns X
  | append_singleton calls c ih =>
    obtain ⟨hr, hc⟩ := size_run rows columns calls
    rw [run_concat, Call.textAt_after (wellFormed_run rows columns calls), given_concat, ih, hr, hc]

/-- The call `c`, made after the calls `before`, changes the text at `X`. -/
def Changes (rows columns : ℕ) (X : Position) (before : List Call) (c : Call) : Prop :=
  (run rows columns (before ++ [c])).textAt X ≠ (run rows columns before).textAt X

/-- Of the calls, `c` is the last one that changes the text at `X`, and `before` are those before
it. -/
def LastChange (rows columns : ℕ) (X : Position) (calls before : List Call) (c : Call) : Prop :=
  ∃ later, calls = before ++ c :: later ∧ Changes rows columns X before c ∧
    ∀ mid d rest, later = mid ++ d :: rest → ¬ Changes rows columns X (before ++ c :: mid) d

/-- Where a list with one more member may be split. -/
theorem concat_eq_append_cons {α : Type} {l before later : List α} {d c : α}
    (h : l ++ [d] = before ++ c :: later) :
    (before = l ∧ c = d ∧ later = []) ∨ ∃ later', later = later' ++ [d] ∧
      l = before ++ c :: later' := by
  rcases List.eq_nil_or_concat' later with rfl | ⟨later', e, rfl⟩
  · obtain ⟨rfl, he⟩ := List.append_inj' h rfl
    obtain ⟨rfl, -⟩ := List.cons.inj he
    exact Or.inl ⟨rfl, rfl, rfl⟩
  · have h' : l ++ [d] = (before ++ c :: later') ++ [e] := by simpa using h
    obtain ⟨rfl, he⟩ := List.append_inj' h' rfl
    obtain ⟨rfl, -⟩ := List.cons.inj he
    exact Or.inr ⟨later', rfl, rfl⟩

theorem lastChange_concat {X : Position} {calls before : List Call} {c d : Call}
    (h : LastChange rows columns X calls before c) (hd : ¬ Changes rows columns X calls d) :
    LastChange rows columns X (calls ++ [d]) before c := by
  obtain ⟨later, rfl, hc, hl⟩ := h
  refine ⟨later ++ [d], by simp, hc, fun mid e rest he => ?_⟩
  rcases concat_eq_append_cons he with ⟨rfl, rfl, -⟩ | ⟨rest', -, rfl⟩
  · exact hd
  · exact hl mid e rest' rfl

/-- **The values of a history**: each is a snapshot, taken by the last call that changed the
text. -/
theorem settled_run (calls : List Call) (X : Position) :
    (∃ before c, LastChange rows columns X calls before c ∧
      Means rows columns (run rows columns (before ++ [c])).textAt
        ((run rows columns calls).textAt X) ((run rows columns calls).valueAt X)) ∨
    ((∀ before c later, calls = before ++ c :: later → ¬ Changes rows columns X before c) ∧
      (run rows columns calls).textAt X = "" ∧ (run rows columns calls).valueAt X = "") := by
  induction calls using List.reverseRecOn with
  | nil =>
    have ht := textAt_empty rows columns X
    refine Or.inr ⟨fun before c later h => ?_, ht,
      (wellFormed_empty rows columns).valueAt_eq_empty ht⟩
    simp at h
  | append_singleton calls d ih =>
    have hg := wellFormed_run rows columns calls
    obtain ⟨hr, hc⟩ := size_run rows columns calls
    by_cases hd : Changes rows columns X calls d
    · refine Or.inl ⟨calls, d, ⟨[], rfl, hd, fun mid e rest he => by simp at he⟩, ?_⟩
      unfold Changes at hd
      rw [run_concat] at hd ⊢
      have := Call.means_after_of_textAt_ne hg hd
      rwa [hr, hc] at this
    · have ht : (run rows columns (calls ++ [d])).textAt X = (run rows columns calls).textAt X :=
        not_not.mp hd
      have hv : (run rows columns (calls ++ [d])).valueAt X =
          (run rows columns calls).valueAt X := by
        rw [run_concat] at ht ⊢
        exact Call.valueAt_after_of_textAt_eq hg ht
      rw [ht, hv]
      rcases ih with ⟨before, c, hl, hm⟩ | ⟨hn, hempty⟩
      · exact Or.inl ⟨before, c, lastChange_concat hl hd, hm⟩
      · refine Or.inr ⟨fun before c later h => ?_, hempty⟩
        rcases concat_eq_append_cons h with ⟨rfl, rfl, -⟩ | ⟨later', -, rfl⟩
        · exact hd
        · exact hn before c later' rfl

/-- **What a history leaves.** For every history of calls on a blank grid of any size, and every
position `X`: a next call succeeds if it clears the grid or addresses a cell of it; there is a cell
at `X` if that lies inside the grid; its text is the one last given to it; its value is the one that
its text had right after the last call that changed it, with text and value both empty if no call
did; and a next call that leaves the text of the cell leaves its value, whatever it does to
others. -/
theorem history_determines_cells (rows columns : ℕ) (calls : List Call) (X : Position) :
    (∀ c : Call, (∃ r, c.outcome (run rows columns calls) = .ok r) ↔
      c = .clear ∨ ∃ p text, c.entry? = some (p, text) ∧ p.Inside rows columns) ∧
    (((run rows columns calls).cell? X).isSome = true ↔ X.Inside rows columns) ∧
    (run rows columns calls).textAt X = given rows columns X calls ∧
    ((∃ before c, LastChange rows columns X calls before c ∧
        Means rows columns (run rows columns (before ++ [c])).textAt
          ((run rows columns calls).textAt X) ((run rows columns calls).valueAt X)) ∨
      ((∀ before c later, calls = before ++ c :: later → ¬ Changes rows columns X before c) ∧
        (run rows columns calls).textAt X = "" ∧ (run rows columns calls).valueAt X = "")) ∧
    (∀ c : Call, ¬ Changes rows columns X calls c →
      (run rows columns (calls ++ [c])).valueAt X = (run rows columns calls).valueAt X) := by
  have hg := wellFormed_run rows columns calls
  obtain ⟨hr, hc⟩ := size_run rows columns calls
  refine ⟨fun c => ?_, ?_, textAt_run calls X, settled_run calls X, fun c h => ?_⟩
  · have := Call.exists_outcome_iff (c := c) hg
    rwa [hr, hc] at this
  · have := hg.isSome_cell?_iff (p := X)
    rwa [Contains, hr, hc] at this
  · have ht := not_not.mp h
    rw [run_concat] at ht ⊢
    exact Call.valueAt_after_of_textAt_eq hg ht

end Grid

end Worksheet
