import Worksheet.Proofs.SavedTexts

/-! # Documents as a code

No two sheets with different texts are saved alike, whatever characters the texts hold. An escaped
text can be expanded again (`expand?_escape`) and holds no `<`, a name holds no quote, so from the
front of a document one record can be told at a time (`recordMarkup_append_inj`), and the records
from the document (`markup_injective`). As the records are those of the cells with a text, in the
order of their positions, `document_determines_texts` follows for grids of any two sizes. -/

namespace Worksheet

open Position

namespace Document

open Text Markup

/-! ### Escaped texts -/

/-- **Escaping is undone by expanding**, whatever stands in the text. -/
theorem expand?_escape (s : List Char) : expand? (escape s) = some s := by
  induction s with
  | nil => exact expand?_eq List.not_mem_nil
  | cons c s ih =>
    rcases escape_cons c s with ⟨name, he, hc, hname⟩ | ⟨he, -, hamp⟩
    · have hend : ';' ∉ name := fun h => absurd (List.all_eq_true.mp hname _ h) (by decide)
      rw [he, expand?_reference (cut?_append hend (escape s)), hc, ih]
      rfl
    · rw [he, expand?_cons hamp, ih]
      rfl

theorem escape_injective : Function.Injective escape := by
  intro s t h
  have hs := expand?_escape s
  rw [h, expand?_escape] at hs
  exact (Option.some.inj hs).symm

/-- No tag begins in an escaped text. -/
theorem not_mem_escape (s : List Char) : '<' ∉ escape s := by
  induction s with
  | nil => exact List.not_mem_nil
  | cons c s ih =>
    rcases escape_cons c s with ⟨name, he, -, hname⟩ | ⟨he, hlt, -⟩
    · have hin : '<' ∉ name := fun h => absurd (List.all_eq_true.mp hname _ h) (by decide)
      simp [he, hin, ih]
    · simp [he, hlt.symm, ih]

/-! ### Records and documents -/

variable {r r' : Record} {s s' : List Char} {records records' : List Record}

theorem delimited_inj {d : Char} {l l' : List Char} (hl : d ∉ l) (hl' : d ∉ l')
    (h : l ++ d :: s = l' ++ d :: s') : l = l' ∧ s = s' := by
  have hcut := cut?_append hl s
  rw [h, cut?_append hl'] at hcut
  obtain ⟨rfl, rfl⟩ := Prod.mk.inj (Option.some.inj hcut)
  exact ⟨rfl, rfl⟩

theorem textMarkup_append (text : String) (s : List Char) :
    textMarkup text ++ s = "<text>".toList ++
      (escape text.toList ++ '<' :: ("/text>".toList ++ s)) := by
  show "<text>".toList ++ escape text.toList ++ "</text>".toList ++ s = _
  rw [List.append_assoc, List.append_assoc]
  rfl

theorem textMarkup_append_inj {text text' : String}
    (h : textMarkup text ++ s = textMarkup text' ++ s') : text = text' ∧ s = s' := by
  rw [textMarkup_append, textMarkup_append] at h
  obtain ⟨htext, hrest⟩ :=
    delimited_inj (not_mem_escape _) (not_mem_escape _) (List.append_cancel_left h)
  exact ⟨String.toList_injective (escape_injective htext), List.append_cancel_left hrest⟩

/-- What stands behind the name in the element of a record. -/
def contentMarkup : Option String → List Char
  | none => "/>".toList
  | some text => '>' :: (textMarkup text ++ "</cell>".toList)

theorem recordMarkup_append (r : Record) (s : List Char) :
    recordMarkup r ++ s = "<cell name=\"".toList ++
      (r.name.toList ++ '"' :: (contentMarkup r.text ++ s)) := by
  rcases r with ⟨name, _ | text⟩
  · simp [recordMarkup, contentMarkup]
  · simp [recordMarkup, contentMarkup]

theorem contentMarkup_append_inj {text text' : Option String}
    (h : contentMarkup text ++ s = contentMarkup text' ++ s') : text = text' ∧ s = s' := by
  rcases text with _ | text <;> rcases text' with _ | text'
  · exact ⟨rfl, List.append_cancel_left h⟩
  · exact absurd (List.cons.inj h).1 (by decide)
  · exact absurd (List.cons.inj h).1 (by decide)
  · simp only [contentMarkup, List.cons_append, List.append_assoc] at h
    obtain ⟨rfl, hrest⟩ := textMarkup_append_inj (List.cons.inj h).2
    exact ⟨rfl, List.append_cancel_left hrest⟩

/-- **The first record is told from what follows it.** -/
theorem recordMarkup_append_inj (hr : '"' ∉ r.name.toList) (hr' : '"' ∉ r'.name.toList)
    (h : recordMarkup r ++ s = recordMarkup r' ++ s') : r = r' ∧ s = s' := by
  rw [recordMarkup_append, recordMarkup_append] at h
  obtain ⟨hname, hcontent⟩ := delimited_inj hr hr' (List.append_cancel_left h)
  obtain ⟨htext, hrest⟩ := contentMarkup_append_inj hcontent
  rcases r with ⟨name, text⟩
  rcases r' with ⟨name', text'⟩
  obtain rfl : name = name' := String.toList_injective hname
  obtain rfl : text = text' := htext
  exact ⟨rfl, hrest⟩

/-- The records are told up to the end of the root, for no record begins as that does. -/
theorem flatMap_recordMarkup_inj (h : ∀ r ∈ records, '"' ∉ r.name.toList)
    (h' : ∀ r ∈ records', '"' ∉ r.name.toList)
    (heq : records.flatMap recordMarkup ++ "</spreadsheet>".toList =
      records'.flatMap recordMarkup ++ "</spreadsheet>".toList) : records = records' := by
  induction records generalizing records' with
  | nil =>
    rcases records' with _ | ⟨r', records'⟩
    · rfl
    · rw [List.flatMap_cons, List.append_assoc, recordMarkup_append] at heq
      exact absurd heq (by simp)
  | cons r records ih =>
    rcases records' with _ | ⟨r', records'⟩
    · rw [List.flatMap_cons, List.append_assoc, recordMarkup_append] at heq
      exact absurd heq (by simp)
    · rw [List.flatMap_cons, List.flatMap_cons, List.append_assoc, List.append_assoc] at heq
      obtain ⟨rfl, hrest⟩ :=
        recordMarkup_append_inj (h r List.mem_cons_self) (h' r' List.mem_cons_self) heq
      rw [ih (fun q hq => h q (List.mem_cons_of_mem r hq))
        (fun q hq => h' q (List.mem_cons_of_mem r hq)) hrest]

/-- **The records are told from the document.** -/
theorem markup_injective (h : ∀ r ∈ records, '"' ∉ r.name.toList)
    (h' : ∀ r ∈ records', '"' ∉ r.name.toList)
    (heq : markup records = markup records') : records = records' := by
  rcases records with _ | ⟨r, records⟩ <;> rcases records' with _ | ⟨r', records'⟩
  · rfl
  · exact absurd heq (by simp [markup])
  · exact absurd heq (by simp [markup])
  · simp only [markup, List.isEmpty_cons, Bool.false_eq_true, if_false, List.append_assoc] at heq
    exact flatMap_recordMarkup_inj h h' (List.append_cancel_left heq)

end Document

namespace Grid

variable {g h : Grid}

theorem quote_not_mem_name (g : Grid) : ∀ r ∈ g.records, '"' ∉ r.name.toList := by
  intro r hr hq
  obtain ⟨c, -, rfl⟩ := List.mem_map.mp hr
  exact absurd (isAlphanum_of_mem_name hq) (by decide)

theorem records_eq_of_document_eq (heq : g.document = h.document) : g.records = h.records :=
  Document.markup_injective g.quote_not_mem_name h.quote_not_mem_name (String.ofList_injective heq)

theorem textAt_eq_of_records_eq (hg : g.WellFormed) (hh : h.WellFormed)
    (heq : g.records = h.records)
    (p : Position) : g.textAt p = h.textAt p := by
  by_cases ht : g.textAt p = ""
  · by_contra hne
    have ht' : h.textAt p ≠ "" := fun h0 => hne (ht.trans h0.symm)
    have hmem := hh.mem_records_iff.mpr ⟨rfl, ht'⟩
    rw [← heq] at hmem
    exact hne (hg.mem_records_iff.mp hmem).1
  · have hmem := hg.mem_records_iff.mpr ⟨rfl, ht⟩
    rw [heq] at hmem
    exact (hh.mem_records_iff.mp hmem).1.symm

/-- **The document determines the texts.** Two grids as steps have left them, of any two sizes and
with any texts, are written as the same bytes if and only if they have texts at the same positions
and the same text at each of these. -/
theorem document_determines_texts (hg : g.Reachable) (hh : h.Reachable) :
    Text.encode g.document = Text.encode h.document ↔
      (∀ p, g.textAt p ≠ "" ↔ h.textAt p ≠ "") ∧ ∀ p, g.textAt p ≠ "" →
        g.textAt p = h.textAt p := by
  constructor
  · intro heq
    have hdocument : g.document = h.document := by
      have hdecoded := Text.decode?_encode g.document
      rw [heq, Text.decode?_encode] at hdecoded
      exact (Option.some.inj hdecoded).symm
    have htexts :=
      textAt_eq_of_records_eq hg.wellFormed hh.wellFormed (records_eq_of_document_eq hdocument)
    exact ⟨fun p => by rw [htexts], fun p _ => htexts p⟩
  · rintro ⟨hplaces, htexts⟩
    refine congrArg Text.encode (document_congr hg.wellFormed hh.wellFormed fun p => ?_)
    by_cases ht : g.textAt p = ""
    · exact ht.trans (not_not.mp (mt (hplaces p).mpr (not_not.mpr ht))).symm
    · exact htexts p ht

/-- A grid with a text that looks like the end of a record. -/
def markedSheet : Grid := reach 1 1 [.call (.setNamed "A1" "</text></cell>")]

/-- A wider grid with this text, from which another one has been taken away. -/
def widerSheet : Grid :=
  reach 1 2 [.call (.setNamed "B1" "x"), .call (.setNamed "A1" "</text></cell>"),
    .call (.setNamed "B1" "")]

/-- A grid whose text is this text as it is escaped. -/
def escapedSheet : Grid := reach 1 1 [.call (.setNamed "A1" "&lt;/text&gt;&lt;/cell&gt;")]

/-- Grids of two sizes are saved alike, and a text is saved in another way than what it is escaped
to. -/
theorem marked_sheets_told_apart :
    markedSheet.Reachable ∧ widerSheet.Reachable ∧ escapedSheet.Reachable ∧
      Text.encode markedSheet.document = Text.encode widerSheet.document ∧
      Text.encode markedSheet.document ≠ Text.encode escapedSheet.document := by
  have hmarked : markedSheet.Reachable := ⟨_, _, _, rfl⟩
  have hwider : widerSheet.Reachable := ⟨_, _, _, rfl⟩
  have hescaped : escapedSheet.Reachable := ⟨_, _, _, rfl⟩
  have htexts : ∀ p, markedSheet.textAt p = widerSheet.textAt p :=
    textAt_eq_of_forall_lt 1 2 (by decide) (by decide) (by decide)
  refine ⟨hmarked, hwider, hescaped, ?_, fun heq => ?_⟩
  · refine (document_determines_texts hmarked hwider).mpr
      ⟨fun p => by rw [htexts], fun p _ => htexts p⟩
  · have hsame := ((document_determines_texts hmarked hescaped).mp heq).2 ⟨0, 0⟩ (by decide)
    exact absurd hsame (by decide)

end Grid

end Worksheet
