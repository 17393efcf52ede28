import Worksheet.Proofs.Loading

/-! # Edits in any order

An edit reads no more of a grid than the text of its own cell, which tells whether the text is new,
and the text of the cell that a formula refers to. It reads no values. So edits of distinct cells
leave the same texts in whatever order they are made, and a value can differ only where the edit of
a cell refers to another edited cell (`Follows`).

`EditedBy g edits h` says what edits of distinct cells make of a grid, without regard to their
order. One more edit keeps it (`EditedBy.concat`), and it leaves nothing open but the values just
mentioned (`EditedBy.cell?_eq`). `edits_in_any_order` says so for calls and for the records of
documents. -/

namespace Worksheet

open Position

/-- A text to be entered under the name of a cell. -/
structure Edit where
  name : String
  text : String
deriving DecidableEq, Repr

namespace Edit

/-- The call that makes an edit. -/
def call (e : Edit) : Call := .setNamed e.name e.text

/-- The record that makes an edit when it is loaded. -/
def record (e : Edit) : Record := ⟨e.name, some e.text⟩

theorem calls_map_record (edits : List Edit) :
    Record.calls (edits.map record) = edits.map call := by
  rw [Record.calls, List.filterMap_map, ← List.filterMap_eq_map]
  rfl

end Edit

namespace Grid

/-- The grid after edits, made one after the other. Those that fail are passed over. -/
def edit (g : Grid) (edits : List Edit) : Grid := (edits.map Edit.call).foldl Call.after g

/-- One of the edits is of the cell at a position. -/
def Touches (g : Grid) (edits : List Edit) (p : Position) : Prop :=
  ∃ e ∈ edits, g.place? e.name = some p

/-- Those of the edits that are of a cell of the grid are of pairwise distinct cells. -/
def Independent (g : Grid) (edits : List Edit) : Prop :=
  (edits.filterMap fun e => g.place? e.name).Nodup

instance (g : Grid) (edits : List Edit) : Decidable (g.Independent edits) :=
  inferInstanceAs (Decidable (List.Nodup _))

/-- The edit of the cell at a position is a formula that refers to another cell with an edit. -/
def Follows (g : Grid) (edits : List Edit) (p : Position) : Prop :=
  ∃ e ∈ edits, g.place? e.name = some p ∧ ∃ q, Refers e.text q ∧ q ≠ p ∧ g.Touches edits q

variable {g h h' : Grid} {edits edits' : List Edit} {e : Edit} {p : Position}

/-! ### Edits of a list -/

theorem edit_concat (g : Grid) (edits : List Edit) (e : Edit) :
    g.edit (edits ++ [e]) = e.call.after (g.edit edits) := by
  simp [edit]

theorem touches_concat_iff : g.Touches (edits ++ [e]) p ↔ g.Touches edits p ∨
    g.place? e.name = some p := by
  constructor
  · rintro ⟨d, hd, hp⟩
    rcases List.mem_append.mp hd with hd | hd
    · exact Or.inl ⟨d, hd, hp⟩
    · exact Or.inr (List.mem_singleton.mp hd ▸ hp)
  · rintro (⟨d, hd, hp⟩ | hp)
    · exact ⟨d, List.mem_append_left _ hd, hp⟩
    · exact ⟨e, by simp, hp⟩

theorem Follows.concat (hp : g.Follows edits p) (e : Edit) : g.Follows (edits ++ [e]) p := by
  obtain ⟨d, hd, hplace, q, hr, hne, ht⟩ := hp
  exact ⟨d, List.mem_append_left _ hd, hplace, q, hr, hne, touches_concat_iff.mpr (Or.inl ht)⟩

theorem independent_concat (hi : g.Independent (edits ++ [e])) :
    g.Independent edits ∧ ∀ p, g.place? e.name = some p → ¬ g.Touches edits p := by
  rw [Independent, List.filterMap_append, List.nodup_append] at hi
  obtain ⟨hedits, -, hne⟩ := hi
  refine ⟨hedits, fun p hp ht => ?_⟩
  obtain ⟨d, hd, hplace⟩ := ht
  exact hne p (List.mem_filterMap.mpr ⟨d, hd, hplace⟩) p
    (List.mem_filterMap.mpr ⟨e, by simp, hp⟩) rfl

theorem touches_perm (hperm : edits.Perm edits') : g.Touches edits p ↔ g.Touches edits' p := by
  simp only [Touches, hperm.mem_iff]

theorem follows_perm (hperm : edits.Perm edits') : g.Follows edits p ↔ g.Follows edits' p := by
  simp only [Follows, hperm.mem_iff, touches_perm hperm]

/-! ### What edits leave -/

/-- What edits of distinct cells make of a grid. A cell without an edit stays as it is. A cell with
one has its text; the value stays if the text was there already, and if it is new and follows no
other edit, it has the value that it means in the end. -/
structure EditedBy (g : Grid) (edits : List Edit) (h : Grid) : Prop where
  wellFormed : h.WellFormed
  rows : h.rows = g.rows
  columns : h.columns = g.columns
  frame : ∀ p, ¬ g.Touches edits p → h.textAt p = g.textAt p ∧ h.valueAt p = g.valueAt p
  text : ∀ e ∈ edits, ∀ p, g.place? e.name = some p → h.textAt p = e.text
  kept : ∀ e ∈ edits, ∀ p, g.place? e.name = some p → g.textAt p = e.text →
    h.valueAt p = g.valueAt p
  settled : ∀ e ∈ edits, ∀ p, g.place? e.name = some p → g.textAt p ≠ e.text → ¬ g.Follows edits p →
    Means g.rows g.columns h.textAt e.text (h.valueAt p)

namespace EditedBy

theorem nil (hg : g.WellFormed) : EditedBy g [] g :=
  ⟨hg, rfl, rfl, fun _ _ => ⟨rfl, rfl⟩, fun _ he => absurd he List.not_mem_nil,
    fun _ he => absurd he List.not_mem_nil,
    fun _ he => absurd he List.not_mem_nil⟩

/-- An edit that is of no cell changes nothing. -/
theorem concat_of_place?_eq_none (hl : EditedBy g edits h) (hnone : g.place? e.name = none) :
    EditedBy g (edits ++ [e]) h := by
  have hold : ∀ d ∈ edits ++ [e], ∀ p, g.place? d.name = some p → d ∈ edits := fun d hd p hp => by
    rcases List.mem_append.mp hd with hd | hd
    · exact hd
    · rw [List.mem_singleton.mp hd, hnone] at hp
      exact nomatch hp
  refine ⟨hl.wellFormed, hl.rows, hl.columns, fun p hp => hl.frame p fun ht => ?_,
    fun d hd p hp => ?_,
    fun d hd p hp => ?_, fun d hd p hp hne hf => ?_⟩
  · exact hp (touches_concat_iff.mpr (Or.inl ht))
  · exact hl.text d (hold d hd p hp) p hp
  · exact hl.kept d (hold d hd p hp) p hp
  · exact hl.settled d (hold d hd p hp) p hp hne fun ht => hf (ht.concat e)

/-- An edit of a cell that had none enters its text, and no edit before it looks at this cell unless
it follows it. -/
theorem concat_of_entered (hl : EditedBy g edits h) (hplace : g.place? e.name = some p)
    (hfirst : ¬ g.Touches edits p) (he : Entered h h' p e.text) : EditedBy g (edits ++ [e]) h' := by
  -- each edit is an earlier one of another cell, or the new one
  have hcases : ∀ d ∈ edits ++ [e], ∀ q, g.place? d.name = some q → (d ∈ edits ∧ q ≠ p) ∨
      (d = e ∧ q = p) := by
    intro d hd q hq
    rcases List.mem_append.mp hd with hd | hd
    · exact Or.inl ⟨hd, fun hqp => hfirst ⟨d, hd, hqp ▸ hq⟩⟩
    · obtain rfl := List.mem_singleton.mp hd
      exact Or.inr ⟨rfl, Option.some.inj (hq.symm.trans hplace)⟩
  have hp : h'.textAt p = e.text := by rw [he.textAt, if_pos rfl]
  have htext : ∀ q, q ≠ p → h'.textAt q = h.textAt q := fun q hq => by rw [he.textAt, if_neg hq]
  obtain ⟨htp, hvp⟩ := hl.frame p hfirst
  refine ⟨he.wellFormed, he.rows.trans hl.rows, he.columns.trans hl.columns, ?_, ?_, ?_, ?_⟩
  · intro q hq
    have hqp : q ≠ p := fun heq => hq (touches_concat_iff.mpr (Or.inr (heq ▸ hplace)))
    obtain ⟨ht, hv⟩ := hl.frame q fun ht => hq (touches_concat_iff.mpr (Or.inl ht))
    exact ⟨(htext q hqp).trans ht, (he.frame q (Or.inl hqp)).trans hv⟩
  · intro d hd q hq
    rcases hcases d hd q hq with ⟨hd, hqp⟩ | ⟨rfl, rfl⟩
    · rw [htext q hqp]
      exact hl.text d hd q hq
    · exact hp
  · intro d hd q hq hsame
    rcases hcases d hd q hq with ⟨hd, hqp⟩ | ⟨rfl, rfl⟩
    · rw [he.frame q (Or.inl hqp)]
      exact hl.kept d hd q hq hsame
    · rw [he.frame q (Or.inr (htp.trans hsame)), hvp]
  · intro d hd q hq hne hf
    rcases hcases d hd q hq with ⟨hd', hqp⟩ | ⟨rfl, rfl⟩
    -- the cell that an earlier edit refers to is its own or has no edit, so the new one leaves it
    · rw [he.frame q (Or.inl hqp)]
      refine (hl.settled d hd' q hq hne fun ht => hf (ht.concat e)).congr_of_refers fun r hr _ => ?_
      refine (htext r fun hrp => ?_).symm
      subst hrp
      exact hf ⟨d, hd, hq, r, hr, hqp.symm, touches_concat_iff.mpr (Or.inr hplace)⟩
    · have hm := he.settled (htp ▸ hne)
      rwa [hl.rows, hl.columns] at hm

/-- **One more edit.** -/
theorem concat (hl : EditedBy g edits h) (hi : g.Independent (edits ++ [e])) :
    EditedBy g (edits ++ [e]) (e.call.after h) := by
  have hsame := place?_congr hl.rows hl.columns e.name
  rcases hplace : g.place? e.name with _ | p
  · have hfail : e.call.after h = h :=
      Call.after_setNamed_of_place?_eq_none (hsame.trans hplace) e.text
    rw [hfail]
    exact hl.concat_of_place?_eq_none hplace
  · obtain ⟨hname, hp⟩ := place?_eq_some_iff.mp (hsame.trans hplace)
    have he := Call.entered_setNamed hl.wellFormed hname hp e.text
    exact hl.concat_of_entered hplace ((independent_concat hi).2 p hplace) he

/-- The order of the edits does not matter to what they leave. -/
theorem of_perm (hperm : edits.Perm edits') (hl : EditedBy g edits h) : EditedBy g edits' h := by
  refine ⟨hl.wellFormed, hl.rows, hl.columns,
    fun p hp => hl.frame p fun ht => hp ((touches_perm hperm).mp ht),
    fun e he => hl.text e (hperm.mem_iff.mpr he), fun e he => hl.kept e (hperm.mem_iff.mpr he),
    fun e he p hp hne hf => hl.settled e (hperm.mem_iff.mpr he) p hp hne fun ht =>
      hf ((follows_perm hperm).mp ht)⟩

/-- **The texts are settled.** -/
theorem textAt_eq (hl : EditedBy g edits h) (hl' : EditedBy g edits h') (p : Position) :
    h.textAt p = h'.textAt p := by
  by_cases ht : g.Touches edits p
  · obtain ⟨e, he, hp⟩ := ht
    rw [hl.text e he p hp, hl'.text e he p hp]
  · rw [(hl.frame p ht).1, (hl'.frame p ht).1]

/-- **All values are settled** but those that follow another edit. -/
theorem valueAt_eq (hl : EditedBy g edits h) (hl' : EditedBy g edits h')
    (hp : ¬ g.Follows edits p) : h.valueAt p = h'.valueAt p := by
  by_cases ht : g.Touches edits p
  · obtain ⟨e, he, hplace⟩ := ht
    by_cases hsame : g.textAt p = e.text
    · rw [hl.kept e he p hplace hsame, hl'.kept e he p hplace hsame]
    · have hm := hl.settled e he p hplace hsame hp
      rw [funext (hl.textAt_eq hl')] at hm
      exact hm.eq (hl'.settled e he p hplace hsame hp)
  · rw [(hl.frame p ht).2, (hl'.frame p ht).2]

theorem cell?_eq (hl : EditedBy g edits h) (hl' : EditedBy g edits h') (hp : ¬ g.Follows edits p) :
    h.cell? p = h'.cell? p :=
  hl'.wellFormed.cell?_congr hl.wellFormed (hl.rows.trans hl'.rows.symm)
    (hl.columns.trans hl'.columns.symm)
    (hl.textAt_eq hl' p) (hl.valueAt_eq hl' hp)

end EditedBy

/-- **What edits of distinct cells leave.** -/
theorem editedBy_edit (hg : g.WellFormed) (hi : g.Independent edits) :
    EditedBy g edits (g.edit edits) := by
  induction edits using List.reverseRecOn with
  | nil => exact .nil hg
  | append_singleton edits e ih =>
    rw [edit_concat]
    exact (ih (independent_concat hi).1).concat hi

theorem readDocument_edits (hg : g.WellFormed) {bytes : ByteArray}
    (hread : Document.ofBytes? bytes = some (edits.map Edit.record)) :
    g.readDocument bytes = .ok (g.edit edits,
      ⟨(edits.map Edit.record).countP fun r => r.Applies g, (edits.map Edit.record).countP fun r =>
        ¬ r.Applies g⟩) := by
  have hgrid := fst_load g (edits.map Edit.record)
  rw [Edit.calls_map_record] at hgrid
  rw [readDocument, hread, ← snd_load hg]
  exact congrArg (fun h => Except.ok (h, _)) hgrid

/-- **Edits of distinct cells may be made in any order.** Take a grid in whatever state calls and
documents have left it, and edits of which any two that are of cells of the grid are of different
cells. In any two orders they leave the same text in every cell, and the same value in every cell
but possibly those whose own edit is a formula that refers to another edited cell. If there is no
such edit, they leave the same grid. As records of documents they do what they do as calls, and the
reports of loading are the same in both orders. -/
theorem edits_in_any_order (hg : g.Reachable) (hperm : edits.Perm edits')
    (hi : g.Independent edits) :
    (∀ p, ((g.edit edits).cell? p).map Cell.text = ((g.edit edits').cell? p).map Cell.text) ∧
    (∀ p, ¬ g.Follows edits p → (g.edit edits).cell? p = (g.edit edits').cell? p) ∧
    ((∀ p, ¬ g.Follows edits p) → g.edit edits = g.edit edits') ∧
    (∀ bytes bytes', Document.ofBytes? bytes = some (edits.map Edit.record) →
      Document.ofBytes? bytes' = some (edits'.map Edit.record) →
      ∃ report, g.readDocument bytes = .ok (g.edit edits, report) ∧
        g.readDocument bytes' = .ok (g.edit edits', report)) := by
  have hwf := hg.wellFormed
  have hi' : g.Independent edits' := (hperm.filterMap _).nodup_iff.mp hi
  have hl := editedBy_edit hwf hi
  have hl' := (editedBy_edit hwf hi').of_perm hperm.symm
  have hr := hl.rows.trans hl'.rows.symm
  have hc := hl.columns.trans hl'.columns.symm
  refine ⟨fun p => ?_, fun p hp => hl.cell?_eq hl' hp, fun hnone => ?_,
    fun bytes bytes' hread hread' => ?_⟩
  · by_cases hp : (g.edit edits).Contains p
    · have hp' : (g.edit edits').Contains p := by rwa [Contains, ← hr, ← hc]
      rw [hl.wellFormed.cell?_eq hp, hl'.wellFormed.cell?_eq hp']
      exact congrArg some (hl.textAt_eq hl' p)
    · have hp' : ¬ (g.edit edits').Contains p := by rwa [Contains, ← hr, ← hc]
      rw [cell?_of_not_contains hp, cell?_of_not_contains hp']
  · exact ext_tables hl.wellFormed hl'.wellFormed hr hc (fun p _ => hl.textAt_eq hl' p)
      fun p _ => hl.valueAt_eq hl' (hnone p)
  · refine ⟨_, readDocument_edits hwf hread, ?_⟩
    have hrecords := hperm.map Edit.record
    rw [readDocument_edits hwf hread', hrecords.countP_eq, hrecords.countP_eq]

/-- Edits of a row of three cells: a formula that refers to its own cell, a text, a formula that
refers to the cell of this text, and an edit of no cell. -/
def sampleEdits : List Edit := [⟨"a01", "=A1"⟩, ⟨"B1", "x"⟩, ⟨"C1", "=b1"⟩, ⟨"D1", "lost"⟩]

/-- In the two orders the cell that refers to itself becomes the same, and both documents are loaded
with the same report. The cell that refers to an edited one has the same text, but its value depends
on the order. -/
theorem sampleEdits_in_two_orders :
    (reach 1 3 []).Reachable ∧ sampleEdits.Perm sampleEdits.reverse ∧
      (reach 1 3 []).Independent sampleEdits ∧
      ((reach 1 3 []).edit sampleEdits).cell? ⟨0, 0⟩ =
        ((reach 1 3 []).edit sampleEdits.reverse).cell? ⟨0, 0⟩ ∧
      (((reach 1 3 []).edit sampleEdits).cell? ⟨0, 2⟩).map Cell.text =
        (((reach 1 3 []).edit sampleEdits.reverse).cell? ⟨0, 2⟩).map Cell.text ∧
      ((reach 1 3 []).edit sampleEdits).valueAt ⟨0, 2⟩ = "x" ∧
      ((reach 1 3 []).edit sampleEdits.reverse).valueAt ⟨0, 2⟩ = "" ∧
      ∃ bytes bytes' report, bytes ≠ bytes' ∧
        (reach 1 3 []).readDocument bytes = .ok ((reach 1 3 []).edit sampleEdits, report) ∧
        (reach 1 3 []).readDocument bytes' =
          .ok ((reach 1 3 []).edit sampleEdits.reverse, report) := by
  have hreach : (reach 1 3 []).Reachable := ⟨1, 3, [], rfl⟩
  have hperm : sampleEdits.Perm sampleEdits.reverse := sampleEdits.reverse_perm.symm
  have hi : (reach 1 3 []).Independent sampleEdits := by decide
  have hwritten : ∀ e ∈ sampleEdits, ∃ text, Document.Written e.record text := by
    intro e he
    simp only [sampleEdits, List.mem_cons, List.not_mem_nil, or_false] at he
    rcases he with rfl | rfl | rfl | rfl <;>
      exact ⟨_, rfl, by simp [Document.Unbroken], List.all_eq_true.mp (by decide)⟩
  have hread : Document.ofBytes? _ = some (sampleEdits.map Edit.record) :=
    Document.ofBytes?_markup (by simpa using hwritten)
  have hread' : Document.ofBytes? _ = some (sampleEdits.reverse.map Edit.record) :=
    Document.ofBytes?_markup (by simpa using hwritten)
  obtain ⟨htext, hcell, -, hdocuments⟩ := edits_in_any_order hreach hperm hi
  obtain ⟨report, hload, hload'⟩ := hdocuments _ _ hread hread'
  refine ⟨hreach, hperm, hi, hcell _ ?_, htext _, by decide, by decide, _, _, report,
    fun heq => ?_, hload, hload'⟩
  · rintro ⟨e, he, hplace, q, hq, hne, -⟩
    have hfirst : ∀ e ∈ sampleEdits, (reach 1 3 []).place? e.name = some ⟨0, 0⟩ →
      e.text = "=A1" := by decide
    have hself : Refers "=A1" ⟨0, 0⟩ := ⟨'A', ['1'], by decide⟩
    rw [hfirst e he hplace] at hq
    exact hne (hq.eq hself)
  · rw [heq, hread'] at hread
    exact absurd (Option.some.inj hread) (by decide)

end Grid

end Worksheet
