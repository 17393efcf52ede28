import Worksheet.Proofs.FileCommands
import Worksheet.Proofs.SampleContent

/-! # What commands do to files

Evaluating and listing leave the folder, since each of their steps does (`LeavesFolder`). An edit
and a sample make a sheet without changing anything, and only then save it (`action_cases`). The
sheet is told by the calls that lead to it: those of the records in the file and the edit, or those
of the sample (`Saves`). From this `run_replaces_file_or_nothing` tells what becomes of the files,
whatever the folder and the room for the output. -/

namespace Worksheet

open Position

/-! ### Files -/

/-- The folder `f'` is the folder `f` with other bytes in one file. -/
structure Folder.Replaced (f f' : Folder) (name : String) (bytes : ByteArray) : Prop where
  find : f'.find? name = some bytes
  frame : ∀ key, key ≠ name → f'.find? key = f.find? key
  admits : f'.admits = f.admits

theorem Folder.exists_replaced {f : Folder} {name : String} (h : f.admits name = true)
    (bytes : ByteArray) : ∃ f', f.write name bytes = .ok f' ∧ f.Replaced f' name bytes := by
  obtain ⟨f', hwrite, hadmits⟩ := exists_write h bytes
  refine ⟨f', hwrite, find?_of_write hwrite, fun key hkey => ?_, hadmits⟩
  rw [find?_write hwrite, if_neg hkey]

theorem Folder.write_of_not_admits {f : Folder} {name : String} (h : f.admits name = false)
    (bytes : ByteArray) : f.write name bytes = .error .notFound := by
  simp [write, h]

/-- The records that a file keeps: none if there is no such file, and no answer if it is not a
document. -/
def Folder.records? (f : Folder) (file : String) : Option (List Record) :=
  (f.find? file).elim (some []) Document.ofBytes?

/-! ### Sample content -/

namespace Session

/-- **Sample content** comes on a blank sheet by its calls. -/
theorem exists_sample {size : GridSize} (h : size.Words) :
    ∃ s, (new size.rows size.columns).fillDemo = .ok s ∧
      s.grid = Grid.run size.rows size.columns (sampleCalls size.rows size.columns) := by
  have hfills : ∃ s, (new size.rows size.columns).fillDemo = .ok s := by
    by_cases hc : size.columns < 2
    · exact ⟨_, if_pos hc⟩
    · have hnew : (new size.rows size.columns).WellFormed :=
        wellFormed_refresh (s := ofGrid _) (Grid.wellFormed_empty size.rows size.columns)
      obtain ⟨s, hfill, -⟩ := exists_fillDemo hnew h.rows (not_lt.mp hc)
      exact ⟨s, hfill⟩
  obtain ⟨s, hfill⟩ := hfills
  exact ⟨s, hfill, grid_fillDemo hfill⟩

end Session

namespace Command

variable {desk : Desk} {file address text : String} {size : GridSize} {c : Command} {α β : Type}

/-! ### Steps that leave the folder -/

/-- The step leaves the folder, whether it fails or not. -/
def LeavesFolder (a : Action α) : Prop :=
  ∀ desk, match a.run desk with
    | .ok _ desk' | .error _ desk' => desk'.folder = desk.folder

theorem leavesFolder_pure (a : α) : LeavesFolder (pure a) := fun _ => rfl

theorem leavesFolder_get : LeavesFolder get := fun _ => rfl

theorem leavesFolder_settle {ε : Type} (wrap : ε → Error) (r : Except ε α) :
    LeavesFolder (settle wrap r) := by
  rcases r with e | a <;> exact fun _ => rfl

theorem leavesFolder_bind {a : Action α} {f : α → Action β} (ha : LeavesFolder a)
    (hf : ∀ v, LeavesFolder (f v)) : LeavesFolder (a >>= f) := by
  intro desk
  have hdesk := ha desk
  rw [EStateM.run_bind]
  rcases hrun : a.run desk with ⟨v, desk₁⟩ | ⟨e, desk₁⟩ <;> rw [hrun] at hdesk
  · have hnext := hf v desk₁
    dsimp only at hdesk ⊢
    rwa [hdesk] at hnext
  · exact hdesk

theorem leavesFolder_print (text : String) : LeavesFolder (print text) := by
  intro desk
  obtain ⟨desk', hrun | hrun, hfolder⟩ := run_print_cases desk text <;>
    · rw [hrun]
      exact hfolder

theorem leavesFolder_printStatus (s : Session) : LeavesFolder (printStatus s) := by
  unfold printStatus
  split
  · exact leavesFolder_print _
  · exact leavesFolder_pure ()

theorem leavesFolder_forM {a : α → Action Unit} (ha : ∀ v, LeavesFolder (a v)) (l : List α) :
    LeavesFolder (l.forM a) := by
  induction l with
  | nil => exact leavesFolder_pure ()
  | cons v l ih => exact leavesFolder_bind (ha v) fun _ => ih

theorem leavesFolder_loadSheet (file : String) (size : GridSize) :
    LeavesFolder (loadSheet file size) :=
  leavesFolder_bind leavesFolder_get fun _ => leavesFolder_bind (leavesFolder_settle _ _) fun _ =>
    leavesFolder_pure _

theorem leavesFolder_evaluateExpression (expression : String) (bindings : List String) :
    LeavesFolder (evaluateExpression expression bindings) :=
  leavesFolder_bind (leavesFolder_settle _ _) fun _ =>
    leavesFolder_bind (leavesFolder_settle _ _) fun _ =>
    leavesFolder_bind (leavesFolder_settle _ _) fun _ => leavesFolder_print _

theorem leavesFolder_listSheet (file : String) (size : GridSize) :
    LeavesFolder (listSheet file size) :=
  leavesFolder_bind (leavesFolder_loadSheet file size) fun s =>
    leavesFolder_bind (leavesFolder_forM (fun _ => leavesFolder_print _) _) fun _ =>
      leavesFolder_printStatus s

/-- The commands that save a sheet. The others only print. -/
def IsSaving : Command → Prop
  | edit .. | sample .. => True
  | evaluate .. | list .. => False

theorem leavesFolder_action (hc : ¬ c.IsSaving) : LeavesFolder c.action := by
  cases c with
  | evaluate expression bindings => exact leavesFolder_evaluateExpression expression bindings
  | list file size => exact leavesFolder_listSheet file size
  | edit file address text size => exact absurd trivial hc
  | sample file size => exact absurd trivial hc

theorem folder_run (hc : ¬ c.IsSaving) (desk : Desk) : (c.run desk).2.folder = desk.folder := by
  have hdesk := leavesFolder_action hc desk
  unfold run
  rcases hrun : c.action.run desk with ⟨_, desk'⟩ | ⟨e, desk'⟩ <;>
    · rw [hrun] at hdesk
      exact hdesk

/-! ### The sheet that is saved -/

/-- The sheet that a command saves in a file. An edit takes the records of the file onto a blank
sheet and enters one text; sample content does not depend on the folder. -/
inductive Saves (folder : Folder) : Command → String → Grid → Prop
  | edit {file address text : String} {size : GridSize} {records : List Record} :
      folder.records? file = some records → Names size address →
        Saves folder (edit file address text size) file
          (Grid.run size.rows size.columns (Record.calls records ++ [.setNamed address text]))
  | sample (file : String) (size : GridSize) :
      Saves folder (sample file size) file
        (Grid.run size.rows size.columns (Session.sampleCalls size.rows size.columns))

theorem Saves.file_eq {folder : Folder} {file file' : String} {g g' : Grid}
    (h : Saves folder c file g)
    (h' : Saves folder c file' g') : file' = file := by
  cases h <;> cases h' <;> rfl

theorem run_openSheet_of_not_document (h : desk.folder.records? file = none) (size : GridSize) :
    (openSheet file size).run desk = .error (.storage .document) desk := by
  unfold Folder.records? at h
  rcases hfile : desk.folder.find? file with _ | bytes
  · rw [hfile] at h
    exact nomatch h
  · rw [hfile, Option.elim_some] at h
    have hload : (Grid.empty size.rows size.columns).loadFile desk.folder file =
        .error .document := by
      simp [Grid.loadFile, Folder.read, hfile, Grid.readDocument, h, Except.mapError, bind,
        Except.bind]
    simp only [openSheet, loadSheet, EStateM.run_bind, EStateM.run_get, hfile, hload,
      run_settle_error]

/-- **Opening a file** takes its records onto a blank sheet. -/
theorem exists_openSheet_of_records {records : List Record}
    (h : desk.folder.records? file = some records)
    (size : GridSize) :
    ∃ s, (openSheet file size).run desk = .ok s desk ∧ s.Fits ∧
      s.grid = Grid.run size.rows size.columns (Record.calls records) := by
  unfold Folder.records? at h
  rcases hfile : desk.folder.find? file with _ | bytes
  · rw [hfile] at h
    cases h
    exact ⟨.new size.rows size.columns, by simp [openSheet, hfile],
      Session.fits_refresh (Session.ofGrid (.empty size.rows size.columns)), rfl⟩
  · rw [hfile, Option.elim_some] at h
    have hread : (Grid.empty size.rows size.columns).readDocument bytes =
        .ok ((Grid.empty size.rows size.columns).load records) := by
      simp only [Grid.readDocument, h]
    have hopen : (openSheet file size).run desk = (loadSheet file size).run desk := by
      simp [openSheet, hfile]
    rw [hopen, run_loadSheet hfile hread]
    exact ⟨_, rfl, Session.fits_loaded (Session.ofGrid _) _, Grid.fst_load _ records⟩

/-- A session on a sheet that calls lead to. -/
theorem opened_of_grid_eq {s : Session} {calls : List Call} (hs : s.Fits)
    (hgrid : s.grid = Grid.run size.rows size.columns calls) : Opened s size s.grid.textAt := by
  have hsize := Grid.size_run size.rows size.columns calls
  rw [← hgrid] at hsize
  refine ⟨hgrid ▸ Grid.wellFormed_run _ _ _, hs, hsize.1, hsize.2, fun p => ?_⟩
  split
  · rfl
  · next hp =>
    have hout : ¬ s.grid.Contains p := by rwa [Grid.Contains, hsize.1, hsize.2]
    exact Grid.textAt_of_not_contains hout

/-! ### Steps that save -/

theorem editSheet_cases (desk : Desk) (file address text : String) (size : GridSize) :
    (∃ s, Saves desk.folder (edit file address text size) file s.grid ∧
        (editSheet file address text size).run desk = (saveSheet s file).run desk) ∨
      ∃ e, e ≠ .output ∧ (editSheet file address text size).run desk = .error e desk ∧
        ∀ file' g, ¬ Saves desk.folder (edit file address text size) file' g := by
  rcases hrecords : desk.folder.records? file with _ | records
  · refine Or.inr ⟨.storage .document, by simp, ?_, fun file' g h => ?_⟩
    · rw [editSheet, EStateM.run_bind, run_openSheet_of_not_document hrecords]
    · cases h with
      | edit h _ => cases hrecords.symm.trans h
  obtain ⟨s, hopen, hfits, hgrid⟩ := exists_openSheet_of_records hrecords size
  have hs := opened_of_grid_eq hfits hgrid
  have hsheet := run_editSheet hopen address text
  by_cases hnames : Names size address
  · obtain ⟨p, hname, hp⟩ := hnames
    obtain ⟨s', hedit, -⟩ := hs.exists_edit hname hp text
    have hgrid' : s'.grid = Grid.run size.rows size.columns
        (Record.calls records ++ [.setNamed address text]) := by
      rw [Session.grid_edit hedit, hgrid, Grid.run_concat]
    rw [hedit] at hsheet
    exact Or.inl ⟨s', hgrid' ▸ .edit hrecords ⟨p, hname, hp⟩, hsheet⟩
  · rw [hs.edit_of_not_names hnames] at hsheet
    refine Or.inr ⟨.reference (.invalidReference address), by simp, hsheet, fun file' g h => ?_⟩
    cases h with
    | edit _ h => exact hnames h

theorem exists_sampleSheet (hw : size.Words) (desk : Desk) (file : String) :
    ∃ s, Saves desk.folder (sample file size) file s.grid ∧
      (sampleSheet file size).run desk = (saveSheet s file).run desk := by
  obtain ⟨s, hfill, hgrid⟩ := Session.exists_sample hw
  refine ⟨s, hgrid ▸ .sample file size, ?_⟩
  rw [sampleSheet, hfill, EStateM.run_bind, run_settle_ok]

/-- **Before a sheet is saved** nothing is changed, and it is saved if there is one to save. -/
theorem action_cases (hc : c.IsSaving) (hw : ∀ size ∈ c.size?, size.Words) (desk : Desk) :
    (∃ s file, Saves desk.folder c file s.grid ∧ c.action.run desk = (saveSheet s file).run desk) ∨
      ∃ e, e ≠ .output ∧ c.action.run desk = .error e desk ∧
        ∀ file g, ¬ Saves desk.folder c file g := by
  cases c with
  | evaluate expression bindings => exact hc.elim
  | list file size => exact hc.elim
  | edit file address text size =>
    exact (editSheet_cases desk file address text size).imp_left fun ⟨s, hs⟩ => ⟨s, file, hs⟩
  | sample file size =>
    obtain ⟨s, hs⟩ := exists_sampleSheet (hw size rfl) desk file
    exact Or.inl ⟨s, file, hs⟩

/-- **Saving a sheet** replaces the file, or fails and changes nothing. -/
theorem saveSheet_cases (s : Session) (file : String) (desk : Desk) :
    (desk.folder.admits file = true ∧ ∃ desk',
        ((saveSheet s file).run desk = .ok () desk' ∨
          (saveSheet s file).run desk = .error .output desk') ∧
          desk.folder.Replaced desk'.folder file (Text.encode s.grid.document)) ∨
      desk.folder.admits file = false ∧
        (saveSheet s file).run desk = .error (.storage (.file .notFound)) desk := by
  rcases hadmits : desk.folder.admits file
  · exact Or.inr ⟨rfl, run_saveSheet_error (Folder.write_of_not_admits hadmits _)⟩
  · obtain ⟨folder, hwrite, hreplaced⟩ :=
      Folder.exists_replaced hadmits (Text.encode s.grid.document)
    obtain ⟨desk', hprint, hfolder⟩ :=
      run_print_cases { desk with folder := folder } ("Saved to " ++ file ++ "\n")
    rw [run_saveSheet hwrite]
    exact Or.inl ⟨rfl, desk', hprint, hfolder ▸ hreplaced⟩

/-! ### Commands -/

/-- The command has come to its end, but for the room for its last message. -/
def Through (outcome : Except Error Unit) : Prop := outcome = .ok () ∨ outcome = .error .output

theorem not_through_error {e : Error} (he : e ≠ .output) {outcome : Except Error Unit}
    (h : outcome = .error e) : ¬ Through outcome := by
  subst h
  rintro (hok | houtput)
  · exact nomatch hok
  · exact he (Except.error.inj houtput)

/-- A command that saves a sheet replaces the file by it, or changes nothing. -/
theorem run_cases (hc : c.IsSaving) (hw : ∀ size ∈ c.size?, size.Words) (desk : Desk) :
    (∃ file g, Saves desk.folder c file g ∧ desk.folder.admits file = true ∧
      Through (c.run desk).1 ∧
        desk.folder.Replaced (c.run desk).2.folder file (Text.encode g.document)) ∨
      ∃ e, e ≠ .output ∧ c.run desk = (.error e, desk) ∧
        ∀ file g, Saves desk.folder c file g → desk.folder.admits file = false := by
  obtain ⟨s, file, hs, haction⟩ | ⟨e, he, haction, hnone⟩ := action_cases hc hw desk
  · obtain ⟨hadmits, desk', hrun, hreplaced⟩ | ⟨hadmits, hrun⟩ := saveSheet_cases s file desk
    · refine Or.inl ⟨file, s.grid, hs, hadmits, ?_⟩
      rcases hrun with hrun | hrun <;> rw [run, haction, hrun]
      · exact ⟨Or.inl rfl, hreplaced⟩
      · exact ⟨Or.inr rfl, hreplaced⟩
    · refine Or.inr ⟨.storage (.file .notFound), by simp, by rw [run, haction, hrun],
        fun file' g h => ?_⟩
      rwa [hs.file_eq h]
  · exact Or.inr ⟨e, he, by rw [run, haction], fun file g h => absurd h (hnone file g)⟩

/-- **A command replaces one file or none.** Take a command that a command line asks for, any
folder, and any room for the output. If the command does not save a sheet it leaves the folder.
Otherwise it changes nothing if it fails with any error but that of the output; and if it succeeds
or fails with this one, it has replaced the file by the sheet to be saved, and no other. This
happens exactly if there is such a sheet, and the folder admits the file. -/
theorem run_replaces_file_or_nothing {arguments : List String} {i : Invocation}
    (h : parse arguments = .ok i)
    (desk : Desk) :
    (¬ i.command.IsSaving → (i.command.run desk).2.folder = desk.folder) ∧
    (i.command.IsSaving →
      (∀ e, (i.command.run desk).1 = .error e → e ≠ .output → (i.command.run desk).2 = desk) ∧
      (Through (i.command.run desk).1 → ∃ file g, Saves desk.folder i.command file g ∧
        desk.folder.Replaced (i.command.run desk).2.folder file (Text.encode g.document)) ∧
      (Through (i.command.run desk).1 ↔ ∃ file g, Saves desk.folder i.command file g ∧
        desk.folder.admits file = true)) := by
  refine ⟨fun hc => folder_run hc desk, fun hc => ?_⟩
  obtain ⟨file, g, hs, hadmits, hthrough, hreplaced⟩ | ⟨e, he, hrun, hnone⟩ :=
    run_cases hc (words_of_parse h) desk
  · refine ⟨fun e herror hne => ?_, fun _ => ⟨file, g, hs, hreplaced⟩,
      iff_of_true hthrough ⟨file, g, hs, hadmits⟩⟩
    exact absurd hthrough (not_through_error hne herror)
  · have hnot := not_through_error he (congrArg Prod.fst hrun)
    refine ⟨fun _ _ _ => by rw [hrun], fun hthrough => absurd hthrough hnot, iff_of_false hnot ?_⟩
    rintro ⟨file, g, hs, hadmits⟩
    exact Bool.false_ne_true ((hnone file g hs).symm.trans hadmits)

/-- A desk with an empty folder and no room for output. -/
def fullDesk : Desk := .start .empty (some 0)

/-- Without room for the message an edit has saved its sheet nevertheless, and one of no cell
changes nothing. -/
theorem edit_without_room :
    parse ["set", "s.xml", "a1", "x", "--rows", "1", "--columns", "1"] =
      .ok ⟨.edit "s.xml" "a1" "x" ⟨1, 1⟩, 0⟩ ∧
    ((edit "s.xml" "a1" "x" ⟨1, 1⟩).run fullDesk).1 = .error .output ∧
    ((edit "s.xml" "a1" "x" ⟨1, 1⟩).run fullDesk).2.folder.find? "s.xml" = some (Text.encode
      "<spreadsheet><cell name=\"A1\"><text>x</text></cell></spreadsheet>") ∧
    parse ["set", "s.xml", "A0", "x"] = .ok ⟨.edit "s.xml" "A0" "x" ⟨50, 26⟩, 0⟩ ∧
    ((edit "s.xml" "A0" "x" ⟨50, 26⟩).run fullDesk).1 =
      .error (.reference (.invalidReference "A0")) ∧
    ((edit "s.xml" "A0" "x" ⟨50, 26⟩).run fullDesk).2 = fullDesk := by
  have hparse : parse ["set", "s.xml", "a1", "x", "--rows", "1", "--columns", "1"] =
      .ok ⟨.edit "s.xml" "a1" "x" ⟨1, 1⟩, 0⟩ := rfl
  have hparse' : parse ["set", "s.xml", "A0", "x"] = .ok ⟨.edit "s.xml" "A0" "x" ⟨50, 26⟩, 0⟩ := rfl
  obtain ⟨-, hsaved⟩ := run_replaces_file_or_nothing hparse fullDesk
  obtain ⟨-, hrefused⟩ := run_replaces_file_or_nothing hparse' fullDesk
  obtain ⟨-, hreplaced, -⟩ := hsaved trivial
  obtain ⟨hunchanged, -⟩ := hrefused trivial
  have houtput : ((edit "s.xml" "a1" "x" ⟨1, 1⟩).run fullDesk).1 = .error .output := by decide
  have herror : ((edit "s.xml" "A0" "x" ⟨50, 26⟩).run fullDesk).1 =
      .error (.reference (.invalidReference "A0")) := by decide
  obtain ⟨file, g, hs, hfile⟩ := hreplaced (Or.inr houtput)
  refine ⟨hparse, houtput, ?_, hparse', herror, hunchanged _ herror (by simp)⟩
  cases hs with
  | @edit _ _ _ _ records hrecords _ =>
    obtain rfl : [] = records := Option.some.inj hrecords
    have hfilled : (Grid.run 1 1 [.setNamed "a1" "x"]).filled = [⟨⟨0, 0⟩, "x", "x"⟩] := by decide
    have hname : Position.name ⟨0, 0⟩ = "A1" := (name_of_lt 0 (by decide)).trans (by decide)
    have hdocument : (Grid.run 1 1 [.setNamed "a1" "x"]).document =
        "<spreadsheet><cell name=\"A1\"><text>x</text></cell></spreadsheet>" := by
      rw [Grid.document, Grid.records, hfilled]
      simp only [List.map_cons, List.map_nil, Cell.name, hname]
      decide
    rw [← hdocument]
    exact hfile.find

end Command

end Worksheet
