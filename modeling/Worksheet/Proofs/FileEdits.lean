import Worksheet.Program
import Worksheet.Proofs.FileCommands

/-! # Sheets edited in files

With one size throughout nothing is lost, and a file edited by any number of runs is a single sheet
in memory (`edited_file_is_one_sheet`): what is `Told` of the file stays true with one more run
(`told_concat`). With another size the texts outside the grid are not written again
(`edit_keeps_texts_inside`). -/

namespace Worksheet

namespace Command

/-! ### The command line of an edit -/

theorem toList_toString (n : ℕ) : (toString n).toList = Text.digitsOf n := by
  show (String.ofList (Text.digitsOf n)).toList = _
  rw [String.toList_ofList]

theorem Form.ofArgument_toString (n : ℕ) : ofArgument (toString n) = .plain := by
  have hminus : '-' ∉ Text.digitsOf n := fun h => absurd (isDigit_of_mem_digitsOf _ h) (by decide)
  unfold ofArgument
  rw [toList_toString]
  split
  · next hd => exact absurd (by rw [hd]; exact List.mem_cons_self) hminus
  · next hd => exact absurd (by rw [hd]; exact List.mem_cons_self) hminus
  · next hd => exact absurd (by rw [hd]; exact List.mem_cons_self) hminus
  · rfl

namespace Progress

theorem once_toString {n : ℕ} (h : n < Text.wordSize) : once none (toString n) = .ok (some n) := by
  have hnumber : number? (toString n) = some n := by
    unfold number?
    rw [toList_toString]
    split
    · next digits hd =>
      have hplus : '+' ∈ Text.digitsOf n := by rw [hd]; exact List.mem_cons_self
      exact absurd (isDigit_of_mem_digitsOf _ hplus) (by decide)
    · exact word?_digitsOf h
  unfold once
  rw [hnumber]

theorem step_plain {p : Progress} {argument : String} (h : Form.ofArgument argument = .plain)
    (hs : p.separated = false) (command : Subcommand) :
    p.step command argument = p.value command argument := by
  unfold step
  rw [hs, h]
  rfl

/-- What has been read of an edit with the given positional arguments, number of rows and pending
option. -/
def ofEdit (positionals : List String) (rows : Option ℕ)
    (pending : Option (ValueOption × Option String)) : Progress :=
  ⟨0, positionals, [], rows, none, pending, false⟩

theorem settle_rows {n : ℕ} (h : n < Text.wordSize) (l : List String) :
    (ofEdit l none (some (.rows, some (toString n)))).settle = .ok (ofEdit l (some n) none) := by
  show (once none (toString n) >>= _) = _
  rw [once_toString h]
  rfl

theorem settle_columns {n : ℕ} (h : n < Text.wordSize) (l : List String) (rows : Option ℕ) :
    (ofEdit l rows (some (.columns, some (toString n)))).settle =
      .ok { ofEdit l rows none with columns := some n } := by
  show (once none (toString n) >>= _) = _
  rw [once_toString h]
  rfl

theorem foldlM_positionals {file address text : String}
    (h : ∀ argument ∈ [file, address, text], Form.ofArgument argument = .plain) :
    [file, address, text].foldlM (step .edit) start =
      .ok (ofEdit [file, address, text] none none) := by
  have hfile : start.step .edit file = .ok (ofEdit [file] none none) :=
    step_plain (h file (by simp)) rfl _
  have haddress : (ofEdit [file] none none).step .edit address =
      .ok (ofEdit [file, address] none none) :=
    step_plain (h address (by simp)) rfl _
  have htext : (ofEdit [file, address] none none).step .edit text =
      .ok (ofEdit [file, address, text] none none) :=
    step_plain (h text (by simp)) rfl _
  simp only [List.foldlM_cons, List.foldlM_nil, bind, Except.bind, hfile, haddress, htext]
  rfl

theorem foldlM_size {rows : ℕ} (h : rows < Text.wordSize) (columns : ℕ) (l : List String) :
    ["--rows", toString rows, "--columns", toString columns].foldlM (step .edit)
      (ofEdit l none none) =
      .ok (ofEdit l (some rows) (some (.columns, some (toString columns)))) := by
  have hrows : (ofEdit l none none).step .edit "--rows" =
    .ok (ofEdit l none (some (.rows, none))) := rfl
  have hrowsValue : (ofEdit l none (some (.rows, none))).step .edit (toString rows) =
      .ok (ofEdit l none (some (.rows, some (toString rows)))) :=
        step_plain (Form.ofArgument_toString _) rfl _
  -- the number of rows is looked at when the next option comes
  have hcolumns : (ofEdit l none (some (.rows, some (toString rows)))).step .edit "--columns" =
      .ok (ofEdit l (some rows) (some (.columns, none))) := by
    show (settle _ >>= _) = _
    rw [settle_rows h]
    rfl
  have hcolumnsValue : (ofEdit l (some rows) (some (.columns, none))).step .edit
    (toString columns) =
      .ok (ofEdit l (some rows) (some (.columns, some (toString columns)))) :=
    step_plain (Form.ofArgument_toString _) rfl _
  simp only [List.foldlM_cons, List.foldlM_nil, bind, Except.bind, hrows, hrowsValue, hcolumns,
    hcolumnsValue]
  rfl

theorem finish_ofEdit {rows columns : ℕ} (h : columns < Text.wordSize)
    (file address text : String) :
    (ofEdit [file, address, text] (some rows)
      (some (.columns, some (toString columns)))).finish .edit =
      .ok (.edit file address text ⟨rows, columns⟩) := by
  rw [finish, settle_columns h]
  rfl

end Progress

/-- The command line that asks for an edit of a file at a given size. -/
def editArguments (file address text : String) (size : GridSize) : List String :=
  ["set", file, address, text, "--rows", toString size.rows, "--columns", toString size.columns]

/-- **The command line of an edit is accepted**, if none of its positional arguments looks like an
option. -/
theorem parse_editArguments {file address text : String} {size : GridSize}
    (h : ∀ argument ∈ [file, address, text], Form.ofArgument argument = .plain)
    (hr : size.rows < Text.wordSize) (hc : size.columns < Text.wordSize) :
    parse (editArguments file address text size) = .ok ⟨.edit file address text size, 0⟩ := by
  have hline : parse (editArguments file address text size) = parseSubcommand .edit 0
      ([file, address, text] ++
        ["--rows", toString size.rows, "--columns", toString size.columns]) := rfl
  have hfold := Progress.foldlM_size hr size.columns [file, address, text]
  rw [hline, parseSubcommand, List.foldlM_append, Progress.foldlM_positionals h]
  show (List.foldlM _ _ _ >>= _) = _
  rw [hfold]
  show (Progress.finish .edit _ >>= _) = _
  rw [Progress.finish_ofEdit hc]
  rfl

end Command

namespace Program

open Command

variable {folder : Folder} {file : String} {size : GridSize} {limit : Option ℕ}
    {arguments : List String}
variable {S : Position → String}

theorem run_of_parse {i : Invocation} (h : parse arguments = .ok i) (folder : Folder)
    (limit : Option ℕ) :
    run folder limit arguments = (reportOf (i.command.run (.start folder limit)).1
      (i.command.run (.start folder limit)).2.printed,
        (i.command.run (.start folder limit)).2.folder) := by
  simp only [run, h]

theorem code_reportOf (outcome : Except Command.Error Unit) (printed : ByteArray) :
    (reportOf outcome printed).code = 0 ↔ outcome = .ok () := by
  rcases outcome with e | ⟨⟩ <;> simp [reportOf]

theorem run_of_not_names {address text : String} {debug : ℕ} (hk : Keeps folder file S)
    (hparse : parse arguments = .ok ⟨.edit file address text size, debug⟩)
    (h : ¬ Names size address)
    (limit : Option ℕ) : (run folder limit arguments).1.code ≠ 0 ∧
    (run folder limit arguments).2 = folder := by
  rw [run_of_parse hparse, run_edit_of_not_names (.start folder limit) hk h text]
  exact ⟨Nat.one_ne_zero, rfl⟩

/-- **A run that edits a cell** succeeds if the file can be written and the output is not
limited. -/
theorem exists_run_of_names {address text : String} {debug : ℕ} {p : Position}
    (hk : Keeps folder file S)
    (hadmits : folder.admits file = true)
    (hparse : parse arguments = .ok ⟨.edit file address text size, debug⟩)
    (hname : Position.ofName? address = some p) (hp : p.Inside size.rows size.columns) :
    ∃ g, Rewritten g size S p text ∧ (run folder none arguments).1.code = 0 ∧
      (run folder none arguments).2.find? file = some (Text.encode g.document) ∧
      (run folder none arguments).2.admits = folder.admits := by
  rw [run_of_parse hparse, code_reportOf]
  dsimp only
  obtain ⟨g, hg, hrun⟩ := exists_run_edit (.start folder none) hk hname hp text
  obtain ⟨folder', hwrite, hadmits'⟩ := Folder.exists_write hadmits (Text.encode g.document)
  rcases hrun with ⟨folder'', hwrite', hfolder, hok⟩ | ⟨e, hwrite', -⟩
  · obtain rfl := Except.ok.inj (hwrite.symm.trans hwrite')
    rw [hfolder]
    exact ⟨g, hg, hok rfl, Folder.find?_of_write hwrite, hadmits'⟩
  · exact nomatch hwrite.symm.trans hwrite'

/-! ### Runs at one size -/

/-- A command line that asks for an edit of a file at a given size, with a text that is read as it
is written. An argument that looks like an option has to stand behind `--`. -/
structure EditLine (file : String) (size : GridSize) where
  arguments : List String
  address : String
  text : String
  debug : ℕ
  parse : parse arguments = .ok ⟨.edit file address text size, debug⟩
  unbroken : Document.Unbroken text.toList

/-- The line with the size at its end, if no argument looks like an option. -/
def EditLine.plain (address text : String)
    (h : ∀ argument ∈ [file, address, text], Form.ofArgument argument = .plain)
    (hr : size.rows < Text.wordSize) (hc : size.columns < Text.wordSize)
    (ht : Document.Unbroken text.toList) : EditLine file size :=
  ⟨editArguments file address text size, address, text, 0, parse_editArguments h hr hc, ht⟩

/-- The call that enters the text of a line in a grid. -/
def EditLine.call (l : EditLine file size) : Call := .setNamed l.address l.text

variable {lines : List (EditLine file size)} {l : EditLine file size}

/-- Those of the lines whose address names a cell. -/
def naming (lines : List (EditLine file size)) : List (EditLine file size) :=
  lines.filter fun l => Names size l.address

/-- The sheet in memory into which the texts of these lines are entered. -/
def sheetOf (lines : List (EditLine file size)) : Grid :=
  Grid.run size.rows size.columns ((naming lines).map EditLine.call)

/-- The folder after runs on the lines. -/
def folderAfter (folder : Folder) (lines : List (EditLine file size)) : Folder :=
  lines.foldl (fun folder l => (run folder none l.arguments).2) folder

theorem naming_concat_of_names (h : Names size l.address) (lines : List (EditLine file size)) :
    naming (lines ++ [l]) = naming lines ++ [l] := by
  simp [naming, h]

theorem naming_concat_of_not_names (h : ¬ Names size l.address)
    (lines : List (EditLine file size)) : naming (lines ++ [l]) = naming lines := by
  simp [naming, h]

theorem folderAfter_concat (folder : Folder) (lines : List (EditLine file size))
    (l : EditLine file size) :
    folderAfter folder (lines ++ [l]) = (run (folderAfter folder lines) none l.arguments).2 := by
  simp [folderAfter]

theorem sheetOf_size (lines : List (EditLine file size)) :
    (sheetOf lines).rows = size.rows ∧ (sheetOf lines).columns = size.columns :=
  Grid.size_run _ _ _

theorem wellFormed_sheetOf (lines : List (EditLine file size)) : (sheetOf lines).WellFormed :=
  Grid.wellFormed_run _ _ _

/-- What the file holds after runs on the lines: nothing at first, and the document of the sheet in
memory as soon as one of them has named a cell. -/
structure Told (folder : Folder) (lines : List (EditLine file size)) : Prop where
  admits : folder.admits file = true
  storable : (sheetOf lines).Storable
  find : folder.find? file =
    if naming lines = [] then none else some (Text.encode (sheetOf lines).document)

theorem Told.keeps (h : Told folder lines) : Keeps folder file (sheetOf lines).textAt := by
  by_cases hn : naming lines = []
  · have hempty : (sheetOf lines).textAt = fun _ => "" := by
      rw [sheetOf, hn]
      exact funext (Grid.textAt_empty size.rows size.columns)
    have hfind := h.find
    rw [if_pos hn] at hfind
    rw [hempty]
    exact .absent hfind
  · have hfind := h.find
    rw [if_neg hn] at hfind
    exact .saved (wellFormed_sheetOf lines) h.storable hfind

/-- **One more run** succeeds if its address names a cell, and what is told of the file stays
true. -/
theorem told_concat (h : Told folder lines) (l : EditLine file size) :
    Told (run folder none l.arguments).2 (lines ++ [l]) ∧
      ((run folder none l.arguments).1.code = 0 ↔ Names size l.address) := by
  by_cases hnames : Names size l.address
  · obtain ⟨hr, hc⟩ := sheetOf_size lines
    have hnaming := naming_concat_of_names hnames lines
    have hsheet : sheetOf (lines ++ [l]) = l.call.after (sheetOf lines) := by
      rw [sheetOf, hnaming, List.map_append]
      exact Grid.run_concat _ _
    have ⟨p, hname, hp⟩ := hnames
    have he : Grid.Entered (sheetOf lines) (l.call.after (sheetOf lines)) p l.text :=
      Call.entered_setNamed (wellFormed_sheetOf lines) hname
        (by rw [Grid.Contains, hr, hc]; exact hp) l.text
    obtain ⟨g, hg, hcode, hfind, hadmits⟩ := exists_run_of_names h.keeps h.admits l.parse hname hp
    rw [hg.document_eq (rewritten_of_entered hr hc he)] at hfind
    refine ⟨⟨?_, ?_, ?_⟩, iff_of_true hcode hnames⟩
    · rw [hadmits]
      exact h.admits
    · rw [hsheet]
      exact he.storable (wellFormed_sheetOf lines) h.storable hname l.unbroken
    · rw [hsheet, hnaming, if_neg (by simp)]
      exact hfind
  · obtain ⟨hcode, hfolder⟩ := run_of_not_names h.keeps l.parse hnames none
    have hnaming := naming_concat_of_not_names hnames lines
    have hsheet : sheetOf (lines ++ [l]) = sheetOf lines := by rw [sheetOf, hnaming, sheetOf]
    rw [hfolder]
    refine ⟨⟨h.admits, ?_, ?_⟩, iff_of_false hcode hnames⟩
    · rw [hsheet]
      exact h.storable
    · rw [hsheet, hnaming]
      exact h.find

theorem told_folderAfter (hfile : folder.find? file = none) (hadmits : folder.admits file = true)
    (lines : List (EditLine file size)) : Told (folderAfter folder lines) lines := by
  induction lines using List.reverseRecOn with
  | nil => exact ⟨hadmits, Grid.storable_empty _ _, hfile⟩
  | append_singleton lines l ih =>
    rw [folderAfter_concat]
    exact (told_concat ih l).1

/-- **A file edited by runs is one sheet in memory.** Take a file that is not there yet, and any
runs on lines that ask for edits of it at one size. A next run succeeds exactly if its address names
a cell. Once a run has succeeded, the file is, byte for byte, the document of the one sheet in
memory into which the texts of the successful runs have been entered in turn. Listing the file at
this size then succeeds, leaves the folder, and prints each cell that is not blank, row by row, with
its text and the value that it gets when the texts are entered again row by row, and then their
number. -/
theorem edited_file_is_one_sheet (hfile : folder.find? file = none)
    (hadmits : folder.admits file = true)
    (lines : List (EditLine file size)) :
    (∀ l : EditLine file size,
      (run (folderAfter folder lines) none l.arguments).1.code = 0 ↔ Names size l.address) ∧
    (folderAfter folder lines).find? file =
      (if naming lines = [] then none else some (Text.encode (sheetOf lines).document)) ∧
    (naming lines ≠ [] → ∀ arguments debug, parse arguments = .ok ⟨.list file size, debug⟩ →
      run (folderAfter folder lines) none arguments =
        (⟨0, Text.encode (listing (sheetOf lines) file), none⟩, folderAfter folder lines)) := by
  have ht := told_folderAfter hfile hadmits lines
  refine ⟨fun l => (told_concat ht l).2, ht.find, fun hne arguments debug hparse => ?_⟩
  have hfind := ht.find
  rw [if_neg hne] at hfind
  obtain ⟨hr, hc⟩ := sheetOf_size lines
  have hsize : (⟨(sheetOf lines).rows, (sheetOf lines).columns⟩ : GridSize) = size := by rw [hr, hc]
  have hlist :=
    run_list (.start (folderAfter folder lines) none)
    (wellFormed_sheetOf lines) ht.storable hfind rfl
  have hprinted :
    ((Desk.start (folderAfter folder lines) none).with (listing (sheetOf lines) file)).printed =
      Text.encode (listing (sheetOf lines) file) := ByteArray.empty_append
  rw [hsize] at hlist
  rw [run_of_parse hparse, hlist, hprinted]
  rfl

theorem name_firstCell : Position.name ⟨0, 0⟩ = "A1" :=
  (Position.name_of_lt 0 (by decide)).trans (by decide)

theorem name_secondCell : Position.name ⟨0, 1⟩ = "B1" :=
  (Position.name_of_lt 0 (by decide)).trans (by decide)

/-- Three edits of a file; the last one names no cell. -/
def sampleEdits : List (EditLine "s.xml" ⟨1, 2⟩) :=
  [.plain "B1" "x" (by decide) (by decide) (by decide) (by simp [Document.Unbroken]),
    .plain "a1" "=B1" (by decide) (by decide) (by decide) (by simp [Document.Unbroken]),
    .plain "C1" "out" (by decide) (by decide) (by decide) (by simp [Document.Unbroken])]

/-- A formula is listed without the text it refers to if this is read back after it. -/
theorem listing_of_edited_file :
    Folder.empty.find? "s.xml" = none ∧ Folder.empty.admits "s.xml" = true ∧
    (folderAfter .empty sampleEdits).find? "s.xml" = some (Text.encode
      "<spreadsheet><cell name=\"A1\"><text>=B1</text></cell><cell name=\"B1\"><text>x</text></cell></spreadsheet>") ∧
    run (folderAfter .empty sampleEdits) none ["show", "s.xml", "--rows", "1", "--columns", "2"] =
      (⟨0, Text.encode "A1\t=B1\t\nB1\tx\tx\nLoaded 2 cells from s.xml\n", none⟩,
        folderAfter .empty sampleEdits) := by
  have hfile : Folder.empty.find? "s.xml" = none := rfl
  have hadmits : Folder.empty.admits "s.xml" = true := by decide
  obtain ⟨-, hfind, hshow⟩ := edited_file_is_one_sheet hfile hadmits sampleEdits
  have hsheet : sheetOf sampleEdits = Grid.run 1 2 [.setNamed "B1" "x", .setNamed "a1" "=B1"] := by
    rw [sheetOf]
    rfl
  have hnaming : naming sampleEdits ≠ [] := by decide
  have hfilled : (Grid.run 1 2 [.setNamed "B1" "x", .setNamed "a1" "=B1"]).filled =
      [⟨⟨0, 0⟩, "=B1", "x"⟩, ⟨⟨0, 1⟩, "x", "x"⟩] := by
    decide
  have hrecords : (Grid.run 1 2 [.setNamed "B1" "x", .setNamed "a1" "=B1"]).records =
      [⟨"A1", some "=B1"⟩, ⟨"B1", some "x"⟩] := by
    rw [Grid.records, hfilled]
    simp only [List.map_cons, List.map_nil, Cell.name, name_firstCell, name_secondCell]
  have hreplay : (Grid.run 1 2 [.setNamed "B1" "x", .setNamed "a1" "=B1"]).replay =
      Grid.run 1 2 [.setNamed "A1" "=B1", .setNamed "B1" "x"] := by
    rw [Grid.replay, hfilled]
    simp only [List.map_cons, List.map_nil, Cell.name, name_firstCell, name_secondCell]
    rfl
  have hlisting : listing (Grid.run 1 2 [.setNamed "B1" "x", .setNamed "a1" "=B1"]) "s.xml" =
      "A1\t=B1\t\nB1\tx\tx\nLoaded 2 cells from s.xml\n" := by
    rw [listing, hreplay, hfilled]
    simp only [List.map_cons, List.map_nil, Cell.name, name_firstCell, name_secondCell]
    decide
  refine ⟨hfile, hadmits, ?_, ?_⟩
  · rw [hfind, if_neg hnaming, hsheet, Grid.document, hrecords]
    exact congrArg (fun s => some (Text.encode s)) (by decide)
  · rw [hshow hnaming _ 0 rfl, hsheet, hlisting]

/-! ### Runs at another size -/

/-- **What an edit keeps of a saved sheet.** A run that edits a saved sheet with success, at any
size, leaves in the file the document of a sheet of that size. Of the cells other than the one
addressed, it has records of those that had one and lie inside this size, with the same texts, and
of no others. The document is read as these records, if the new text is read as it is written. -/
theorem edit_keeps_texts_inside {g : Grid} (hg : g.WellFormed) (hst : g.Storable)
    {address text : String}
    {debug : ℕ}
    (hfile : folder.find? file = some (Text.encode g.document))
    (hparse : parse arguments = .ok ⟨.edit file address text size, debug⟩)
    (hrun : (run folder limit arguments).1.code = 0) :
    ∃ p g', Position.ofName? address = some p ∧ p.Inside size.rows size.columns ∧
      Rewritten g' size g.textAt p text ∧
      (run folder limit arguments).2.find? file = some (Text.encode g'.document) ∧
      (∀ q, q ≠ p → ∀ t, ⟨q.name, some t⟩ ∈ g'.records ↔
        ⟨q.name, some t⟩ ∈ g.records ∧ q.Inside size.rows size.columns) ∧
      Document.ofBytes? (Text.encode g.document) = some g.records ∧
      (Document.Unbroken text.toList →
        Document.ofBytes? (Text.encode g'.document) = some g'.records) := by
  have hk : Keeps folder file g.textAt := .saved hg hst hfile
  obtain ⟨p, hname, hp⟩ : Names size address := by
    by_contra hn
    exact (run_of_not_names hk hparse hn limit).1 hrun
  rw [run_of_parse hparse] at hrun ⊢
  rw [code_reportOf] at hrun
  dsimp only at hrun ⊢
  obtain ⟨g', hg', ⟨folder', hwrite, hfolder, -⟩ | ⟨e, -, herror⟩⟩ :=
    exists_run_edit (.start folder limit) hk hname hp text
  · refine ⟨p, g', hname, hp, hg', ?_, fun q hq t => ?_, ?_, fun htext => ?_⟩
    · rw [hfolder]
      exact Folder.find?_of_write hwrite
    · rw [hg'.wellFormed.mem_records_iff, hg.mem_records_iff, hg'.textAt, if_neg hq]
      by_cases hin : q.Inside size.rows size.columns
      · rw [if_pos hin, and_iff_left hin]
      · rw [if_neg hin]
        exact iff_of_false (fun h => h.2 h.1.symm) fun h => hin h.2
    · exact hst.ofBytes?_document
    · exact (hg'.storable hg hst hname htext).ofBytes?_document
  · rw [herror] at hrun
    exact nomatch hrun

/-- An edit of the second cell in a row of two. -/
def secondCellEdit : EditLine "s.xml" ⟨1, 2⟩ :=
  .plain "B1" "keep" (by decide) (by decide) (by decide) (by simp [Document.Unbroken])

/-- The folder after that edit. -/
def secondCellFolder : Folder := folderAfter .empty [secondCellEdit]

/-- The command line of an edit in a sheet of one cell. -/
def firstCellArguments : List String := ["set", "s.xml", "A1", "x", "--rows", "1", "--columns", "1"]

theorem told_secondCellFolder : Told secondCellFolder [secondCellEdit] :=
  told_folderAfter rfl (by decide) _

theorem exists_firstCell_run :
    ∃ g, Rewritten g ⟨1, 1⟩ (sheetOf [secondCellEdit]).textAt ⟨0, 0⟩ "x" ∧
      (run secondCellFolder none firstCellArguments).1.code = 0 ∧
      (run secondCellFolder none firstCellArguments).2.find? "s.xml" =
        some (Text.encode g.document) := by
  have hparse : parse firstCellArguments = .ok ⟨.edit "s.xml" "A1" "x" ⟨1, 1⟩, 0⟩ := rfl
  have hname : Position.ofName? "A1" = some ⟨0, 0⟩ := by decide
  obtain ⟨g, hg, hcode, hfind, -⟩ :=
    exists_run_of_names told_secondCellFolder.keeps told_secondCellFolder.admits
    hparse hname (by decide)
  exact ⟨g, hg, hcode, hfind⟩

/-- The text of the second cell is not kept by an edit in a sheet of one cell. -/
theorem second_cell_not_kept :
    (sheetOf [secondCellEdit]).WellFormed ∧ (sheetOf [secondCellEdit]).Storable ∧
    secondCellFolder.find? "s.xml" = some (Text.encode (sheetOf [secondCellEdit]).document) ∧
    parse firstCellArguments = .ok ⟨.edit "s.xml" "A1" "x" ⟨1, 1⟩, 0⟩ ∧
    (run secondCellFolder none firstCellArguments).1.code = 0 ∧
    ⟨Position.name ⟨0, 1⟩, some "keep"⟩ ∈ (sheetOf [secondCellEdit]).records ∧
    ∃ g : Grid, (run secondCellFolder none firstCellArguments).2.find? "s.xml" =
      some (Text.encode g.document) ∧
      ⟨Position.name ⟨0, 1⟩, some "keep"⟩ ∉ g.records := by
  have hg := wellFormed_sheetOf [secondCellEdit]
  have hst := told_secondCellFolder.storable
  have hfile : secondCellFolder.find? "s.xml" =
      some (Text.encode (sheetOf [secondCellEdit]).document) := by
    have hfind := told_secondCellFolder.find
    rwa [if_neg (by decide)] at hfind
  have hparse : parse firstCellArguments = .ok ⟨.edit "s.xml" "A1" "x" ⟨1, 1⟩, 0⟩ := rfl
  obtain ⟨-, -, hrun, -⟩ := exists_firstCell_run
  obtain ⟨p, g, hname, -, -, hfind, hrecords, -⟩ := edit_keeps_texts_inside hg hst hfile hparse hrun
  have hp : p = ⟨0, 0⟩ := Option.some.inj (hname.symm.trans (by decide))
  refine ⟨hg, hst, hfile, hparse, hrun, ?_, g, hfind, fun hmem => ?_⟩
  · exact hg.mem_records_iff.mpr ⟨by decide, by decide⟩
  · have hin := ((hrecords ⟨0, 1⟩ (by rw [hp]; decide) "keep").mp hmem).2
    exact absurd hin (by decide)

/-- **A text is lost.** After the second cell has been edited in a row of two, an edit of the first
one in a sheet of one cell succeeds, and the record of the second cell is gone. -/
theorem edit_loses_text_outside :
    secondCellFolder.find? "s.xml" = some (Text.encode
      "<spreadsheet><cell name=\"B1\"><text>keep</text></cell></spreadsheet>") ∧
    (run secondCellFolder none firstCellArguments).1.code = 0 ∧
    (run secondCellFolder none firstCellArguments).2.find? "s.xml" = some (Text.encode
      "<spreadsheet><cell name=\"A1\"><text>x</text></cell></spreadsheet>") := by
  obtain ⟨g, hg, hrun, hfind⟩ := exists_firstCell_run
  refine ⟨?_, hrun, ?_⟩
  · have hbefore := told_secondCellFolder.find
    have hfilled : (sheetOf [secondCellEdit]).filled = [⟨⟨0, 1⟩, "keep", "keep"⟩] := by decide
    have hrecords : (sheetOf [secondCellEdit]).records = [⟨"B1", some "keep"⟩] := by
      rw [Grid.records, hfilled, List.map_singleton, Cell.name, name_secondCell]
    rw [if_neg (by decide), Grid.document, hrecords] at hbefore
    rw [hbefore]
    exact congrArg (fun s => some (Text.encode s)) (by decide)
  · have hname : Position.ofName? "A1" = some ⟨0, 0⟩ := by decide
    have he := Call.entered_setNamed (Grid.wellFormed_empty 1 1) hname (by decide) "x"
    have hone : Rewritten ((Call.setNamed "A1" "x").after (.empty 1 1)) ⟨1, 1⟩
      (sheetOf [secondCellEdit]).textAt
        ⟨0, 0⟩ "x" := by
      refine ⟨he.wellFormed, he.rows, he.columns, fun q => ?_⟩
      rw [he.textAt, Grid.textAt_empty]
      by_cases hq : q = ⟨0, 0⟩
      · rw [if_pos hq, if_pos hq]
      · have hout : ¬ q.Inside 1 1 := fun h =>
          hq (congrArg₂ Position.mk (Nat.lt_one_iff.mp h.1) (Nat.lt_one_iff.mp h.2))
        rw [if_neg hq, if_neg hq, if_neg hout]
    have hfilled : ((Call.setNamed "A1" "x").after (.empty 1 1)).filled = [⟨⟨0, 0⟩, "x", "x"⟩] := by
      decide
    have hrecords : ((Call.setNamed "A1" "x").after (.empty 1 1)).records = [⟨"A1", some "x"⟩] := by
      rw [Grid.records, hfilled, List.map_singleton, Cell.name, name_firstCell]
    rw [hfind, hg.document_eq hone, Grid.document, hrecords]
    exact congrArg (fun s => some (Text.encode s)) (by decide)

end Program

end Worksheet
