import Worksheet.Command.Basic
import Worksheet.Proofs.SavedTexts
import Worksheet.Proofs.Screen

/-! # Commands on a file

`Keeps folder file S` says that the texts in a file are `S`. Opening the file puts those of them
that lie inside the grid into the session (`exists_openSheet`). A successful edit writes the
document of these, with one text changed (`exists_run_edit`), so that it is told by the texts alone
(`Rewritten.document_eq`); with the size of the saved grid it is the document of this grid after
entering the text (`rewritten_of_entered`). Listing prints the cells that have a text, with the
values these get when they are entered again (`run_list`). -/

namespace Worksheet

open Position

theorem Text.encode_append (s t : String) : Text.encode (s ++ t) = Text.encode s ++ Text.encode t :=
  String.toByteArray_append

theorem Folder.exists_write {f : Folder} {name : String} (h : f.admits name = true)
    (bytes : ByteArray) : ∃ f', f.write name bytes = .ok f' ∧ f'.admits = f.admits := by
  unfold Folder.write
  rw [if_pos h]
  exact ⟨_, rfl, rfl⟩

theorem Folder.find?_of_write {f f' : Folder} {name : String} {bytes : ByteArray}
    (h : f.write name bytes = .ok f') : f'.find? name = some bytes := by
  rw [find?_write h, if_pos rfl]

namespace Command

variable {desk : Desk} {file address text : String} {size : GridSize} {S : Position → String}
variable {s s' : Session} {g : Grid} {p : Position}

@[simp] theorem run_settle_ok {ε α : Type} (wrap : ε → Error) (a : α) :
    (settle wrap (.ok a)).run desk = .ok a desk := rfl

@[simp] theorem run_settle_error {ε α : Type} (wrap : ε → Error) (e : ε) :
    (settle wrap (.error e) : Action α).run desk = .error (wrap e) desk := rfl

/-! ### Printing -/

/-- The desk with a text printed. -/
def Desk.with (desk : Desk) (text : String) : Desk :=
  { desk with printed := desk.printed ++ Text.encode text }

theorem Desk.with_with (desk : Desk) (s t : String) :
    (desk.with s).with t = desk.with (s ++ t) := by
  simp only [Desk.with, Text.encode_append, ByteArray.append_assoc]

theorem run_print (desk : Desk) (h : desk.limit = none) (text : String) :
    (print text).run desk = .ok () (desk.with text) := by
  simp [print, h, Desk.with]

/-- Printing leaves the folder, whether the text finds room or not. -/
theorem run_print_cases (desk : Desk) (text : String) :
    ∃ desk', ((print text).run desk = .ok () desk' ∨ (print text).run desk = .error .output desk') ∧
      desk'.folder = desk.folder := by
  unfold print
  rw [EStateM.run_bind, EStateM.run_get]
  dsimp only
  split
  · exact ⟨desk.with text, Or.inl rfl, rfl⟩
  · exact ⟨_, Or.inr rfl, rfl⟩

theorem run_printStatus (desk : Desk) (h : desk.limit = none) {message : String}
    (hs : s.status = some message) :
    (printStatus s).run desk = .ok () (desk.with (message ++ "\n")) := by
  simp only [printStatus, hs]
  exact run_print desk h _

theorem run_forM_printLine {α : Type} (desk : Desk) (h : desk.limit = none) (line : α → String)
    (l : List α) :
    (l.forM fun a => printLine (line a)).run desk =
      .ok () (desk.with (String.join (l.map fun a => line a ++ "\n"))) := by
  induction l generalizing desk with
  | nil =>
    have hnothing : desk.printed ++ Text.encode "" = desk.printed := ByteArray.append_empty
    show EStateM.Result.ok () desk = _
    rw [List.map_nil, String.join_nil, Desk.with, hnothing]
  | cons a l ih =>
    have hline : (printLine (line a)).run desk = .ok () (desk.with (line a ++ "\n")) :=
      run_print desk h _
    have hrest := ih (desk.with (line a ++ "\n")) h
    have hcons : (a :: l).forM (fun a => printLine (line a)) =
        (printLine (line a) >>= fun _ => l.forM fun a => printLine (line a)) := rfl
    rw [hcons, EStateM.run_bind, hline]
    dsimp only
    rw [hrest, Desk.with_with, List.map_cons, String.join_cons]

/-! ### Opening -/

/-- The texts that a folder keeps in a file: none if there is no such file, or those of a saved
grid. -/
inductive Keeps (folder : Folder) (file : String) : (Position → String) → Prop
  | absent : folder.find? file = none → Keeps folder file fun _ => ""
  | saved {g : Grid} : g.WellFormed → g.Storable →
      folder.find? file = some (Text.encode g.document) →
      Keeps folder file g.textAt

/-- A session on a sheet of the given size, with those of the texts `S` that lie inside it. -/
structure Opened (s : Session) (size : GridSize) (S : Position → String) : Prop where
  grid : s.grid.WellFormed
  fits : s.Fits
  rows : s.grid.rows = size.rows
  columns : s.grid.columns = size.columns
  textAt : ∀ p, s.grid.textAt p = if p.Inside size.rows size.columns then S p else ""

theorem Opened.contains_iff (hs : Opened s size S) :
    s.grid.Contains p ↔ p.Inside size.rows size.columns := by
  rw [Grid.Contains, hs.rows, hs.columns]
  rfl

theorem run_loadSheet {bytes : ByteArray} {report : LoadReport}
    (hfile : desk.folder.find? file = some bytes)
    (hread : (Grid.empty size.rows size.columns).readDocument bytes = .ok (g, report)) :
    (loadSheet file size).run desk = .ok ((Session.ofGrid g).loaded (.ok (report, file))) desk := by
  have hload : (Grid.empty size.rows size.columns).loadFile desk.folder file = .ok (g, report) := by
    simp [Grid.loadFile, Folder.read, hfile, hread, Except.mapError, bind, Except.bind]
  simp only [loadSheet, EStateM.run_bind, EStateM.run_get, hload, run_settle_ok, EStateM.run_pure]

/-- **Opening a file** gives a session with the texts that lie inside its grid. -/
theorem exists_openSheet (h : Keeps desk.folder file S) (size : GridSize) :
    ∃ s, (openSheet file size).run desk = .ok s desk ∧ Opened s size S := by
  cases h with
  | absent hfile =>
    have hfits : (Session.new size.rows size.columns).Fits :=
      Session.fits_refresh (Session.ofGrid (Grid.empty size.rows size.columns))
    refine ⟨.new size.rows size.columns, by simp [openSheet, hfile], Grid.wellFormed_empty _ _,
      hfits, rfl, rfl,
      fun p => ?_⟩
    rw [ite_self]
    exact Grid.textAt_empty _ _ p
  | @saved g hg hst hfile =>
    obtain ⟨h, hread, hwf, hr, hc, hcells⟩ := Grid.exists_loaded hg hst size.rows size.columns
    have hopen : (openSheet file size).run desk = (loadSheet file size).run desk := by
      simp [openSheet, hfile]
    rw [hopen, run_loadSheet hfile hread]
    refine ⟨_, rfl, ⟨hwf, Session.fits_loaded (Session.ofGrid h) _, hr, hc, fun p => ?_⟩⟩
    show h.textAt p = _
    split
    · next hp => exact (hcells p hp).1
    · next hp =>
      have hout : ¬ h.Contains p := by rwa [Grid.Contains, hr, hc]
      exact Grid.textAt_of_not_contains hout

/-! ### Editing -/

/-- The address names a cell of a sheet of the given size. -/
def Names (size : GridSize) (address : String) : Prop :=
  ∃ p ∈ ofName? address, p.Inside size.rows size.columns

instance (size : GridSize) (address : String) : Decidable (Names size address) :=
  inferInstanceAs (Decidable (∃ p ∈ ofName? address, p.Inside size.rows size.columns))

/-- A sheet of the given size with those of the texts `S` that lie inside it, but another text at a
position. -/
structure Rewritten (g : Grid) (size : GridSize) (S : Position → String) (p : Position)
    (text : String) : Prop where
  wellFormed : g.WellFormed
  rows : g.rows = size.rows
  columns : g.columns = size.columns
  textAt : ∀ q, g.textAt q = if q = p then text
    else if q.Inside size.rows size.columns then S q else ""

theorem Rewritten.document_eq {g' : Grid} (h : Rewritten g size S p text)
    (h' : Rewritten g' size S p text) : g.document = g'.document :=
  Grid.document_congr h.wellFormed h'.wellFormed fun q => (h.textAt q).trans (h'.textAt q).symm

/-- With one size, it is the sheet after entering the text. -/
theorem rewritten_of_entered {g' : Grid} (hr : g.rows = size.rows) (hc : g.columns = size.columns)
    (he : Grid.Entered g g' p text) : Rewritten g' size g.textAt p text := by
  refine ⟨he.wellFormed, he.rows.trans hr, he.columns.trans hc, fun q => ?_⟩
  rw [he.textAt]
  by_cases hq : q.Inside size.rows size.columns
  · rw [if_pos hq]
  · have hout : ¬ g.Contains q := by rwa [Grid.Contains, hr, hc]
    rw [if_neg hq, Grid.textAt_of_not_contains hout]

theorem Rewritten.storable {g' : Grid} (h : Rewritten g' size g.textAt p text) (hg : g.WellFormed)
    (hst : g.Storable) (hname : ofName? address = some p) (htext : Document.Unbroken text.toList) :
    g'.Storable := by
  have hp : g'.textAt p = text := by rw [h.textAt, if_pos rfl]
  refine h.wellFormed.storable_of_textAt hg hst hname (hp ▸ htext) fun q hq hne => ?_
  rw [h.textAt, if_neg hq] at hne ⊢
  split at hne
  · next hin => rw [if_pos hin]
  · exact absurd rfl hne

theorem Opened.exists_edit (hs : Opened s size S) (hname : ofName? address = some p)
    (hp : p.Inside size.rows size.columns) (text : String) :
    ∃ s', s.edit address text = .ok s' ∧ Rewritten s'.grid size S p text := by
  have hplace : s.grid.place? address = some p :=
    Grid.place?_eq_some_iff.mpr ⟨hname, hs.contains_iff.mpr hp⟩
  obtain ⟨s', hedit, he⟩ := Session.exists_edited hs.grid hs.fits hplace text
  refine ⟨s', hedit, he.entered.wellFormed, he.entered.rows.trans hs.rows,
    he.entered.columns.trans hs.columns,
    fun q => ?_⟩
  rw [he.entered.textAt, hs.textAt]

theorem Opened.edit_of_not_names (hs : Opened s size S) (h : ¬ Names size address) (text : String) :
    s.edit address text = .error (.invalidReference address) := by
  refine Session.edit_of_place?_eq_none ?_ text
  rcases hplace : s.grid.place? address with _ | p
  · rfl
  · obtain ⟨hname, hp⟩ := Grid.place?_eq_some_iff.mp hplace
    exact absurd ⟨p, hname, hs.contains_iff.mp hp⟩ h

theorem run_saveSheet {folder : Folder}
    (h : desk.folder.write file (Text.encode s.grid.document) = .ok folder) :
    (saveSheet s file).run desk =
      (print ("Saved to " ++ file ++ "\n")).run { desk with folder := folder } := by
  have hsave : s.grid.save desk.folder file = .ok folder := by rw [Grid.save, h]; rfl
  simp [saveSheet, hsave, printStatus, Session.saved, printLine]

theorem run_saveSheet_error {e : FileError}
    (h : desk.folder.write file (Text.encode s.grid.document) = .error e) :
    (saveSheet s file).run desk = .error (.storage (.file e)) desk := by
  have hsave : s.grid.save desk.folder file = .error (.file e) := by rw [Grid.save, h]; rfl
  simp [saveSheet, hsave]

theorem run_editSheet (hopen : (openSheet file size).run desk = .ok s desk)
    (address text : String) :
    (editSheet file address text size).run desk =
      match s.edit address text with
      | .ok s' => (saveSheet s' file).run desk
      | .error e => .error (.reference e) desk := by
  rw [editSheet, EStateM.run_bind, hopen]
  dsimp only
  rw [EStateM.run_bind]
  rcases s.edit address text with e | s'
  · rw [run_settle_error]
  · rw [run_settle_ok]

/-- **An edit of an address that names no cell** fails and changes nothing. -/
theorem run_edit_of_not_names (desk : Desk) (hk : Keeps desk.folder file S)
    (h : ¬ Names size address)
    (text : String) :
    (edit file address text size).run desk =
      (.error (.reference (.invalidReference address)), desk) := by
  obtain ⟨s, hopen, hs⟩ := exists_openSheet hk size
  have hsheet := run_editSheet hopen address text
  rw [hs.edit_of_not_names h] at hsheet
  rw [run, action, hsheet]

/-- **What an edit of a cell does**: the texts inside the grid are written again, with one of them
changed. It fails only if the file cannot be written, or the message finds no room. -/
theorem exists_run_edit (desk : Desk) (hk : Keeps desk.folder file S)
    (hname : ofName? address = some p)
    (hp : p.Inside size.rows size.columns) (text : String) :
    ∃ g, Rewritten g size S p text ∧
      ((∃ folder, desk.folder.write file (Text.encode g.document) = .ok folder ∧
          ((edit file address text size).run desk).2.folder = folder ∧
          (desk.limit = none → ((edit file address text size).run desk).1 = .ok ())) ∨
        ∃ e, desk.folder.write file (Text.encode g.document) = .error e ∧
          (edit file address text size).run desk = (.error (.storage (.file e)), desk)) := by
  obtain ⟨s, hopen, hs⟩ := exists_openSheet hk size
  obtain ⟨s', hedit, hg⟩ := hs.exists_edit hname hp text
  have hsheet := run_editSheet hopen address text
  rw [hedit] at hsheet
  dsimp only at hsheet
  refine ⟨s'.grid, hg, ?_⟩
  rcases hwrite : desk.folder.write file (Text.encode s'.grid.document) with e | folder
  · rw [run_saveSheet_error hwrite] at hsheet
    exact Or.inr ⟨e, rfl, by rw [run, action, hsheet]⟩
  · rw [run_saveSheet hwrite] at hsheet
    refine Or.inl ⟨folder, rfl, ?_, fun hlimit => ?_⟩
    · obtain ⟨desk', hprint, hfolder⟩ :=
        run_print_cases { desk with folder := folder } ("Saved to " ++ file ++ "\n")
      rcases hprint with hprint | hprint <;> rw [run, action, hsheet, hprint] <;> exact hfolder
    · rw [run, action, hsheet, run_print { desk with folder := folder } hlimit]

/-! ### Listing -/

/-- What is printed for the cells of a saved grid: their names, their texts, and the values that
these get when they are entered again. -/
def listing (g : Grid) (file : String) : String :=
  String.join (g.filled.map fun c => c.name ++ "\t" ++ c.text ++ "\t" ++
    g.replay.valueAt c.position ++ "\n") ++
    ("Loaded " ++ toString g.filled.length ++ " cells from " ++ file ++ "\n")

/-- **Listing a saved grid** at its size. -/
theorem run_list (desk : Desk) (hg : g.WellFormed) (hst : g.Storable)
    (hfile : desk.folder.find? file = some (Text.encode g.document)) (hlimit : desk.limit = none) :
    (list file ⟨g.rows, g.columns⟩).run desk = (.ok (), desk.with (listing g file)) := by
  obtain ⟨hread, hwf, hr, hc, ht⟩ := Grid.readDocument_replay hg hst
  set s : Session := (Session.ofGrid g.replay).loaded (.ok (⟨g.filled.length, 0⟩, file)) with hs
  have hgrid : s.grid = g.replay := rfl
  have hshown : ∀ p, s.shown p = g.replay.valueAt p := fun p => Session.shown_loaded _ _ p
  have hstatus : s.status = some ("Loaded " ++ toString g.filled.length ++ " cells from " ++
    file) := rfl
  have hlines : (s.grid.filled.map fun c => cellLine s c ++ "\n") =
      g.filled.map fun c => c.name ++ "\t" ++ c.text ++ "\t" ++
        g.replay.valueAt c.position ++ "\n" := by
    rw [hgrid, hwf.filled_eq, hg.filled_eq, Grid.textPlaces_congr hwf hg ht]
    simp only [List.map_map]
    refine List.map_congr_left fun p _ => ?_
    simp only [Function.comp_apply, cellLine, hshown, ht]
    rfl
  have hload : (loadSheet file ⟨g.rows, g.columns⟩).run desk = .ok s desk :=
    run_loadSheet hfile hread
  have hcells := run_forM_printLine desk hlimit (cellLine s) s.grid.filled
  have hmessage :=
    run_printStatus (desk.with (String.join (s.grid.filled.map fun c => cellLine s c ++ "\n")))
    hlimit hstatus
  have haction : (list file ⟨g.rows, g.columns⟩).action.run desk =
      .ok () (desk.with (listing g file)) := by
    rw [action, listSheet, EStateM.run_bind, hload]
    dsimp only
    rw [EStateM.run_bind, hcells]
    dsimp only
    rw [hmessage, Desk.with_with, hlines]
    rfl
  rw [run, haction]

end Command

end Worksheet
