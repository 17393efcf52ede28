import Mathlib.Order.Basic
import Worksheet.Command.Arguments

/-! # Sizes on a command line

The numbers of rows and columns that have been read are words after each argument
(`Progress.Sized.step`), so those of a command that a command line asks for are
(`words_of_parse`). -/

namespace Worksheet

theorem exists_of_bind_eq_ok {ε α β : Type} {x : Except ε α} {f : α → Except ε β} {b : β}
    (h : x >>= f = .ok b) : ∃ a, x = .ok a ∧ f a = .ok b := by
  cases x with
  | error e => exact nomatch h
  | ok a => exact ⟨a, rfl, h⟩

/-- What every successful step of a loop keeps holds at its end. -/
theorem of_foldlM_eq_ok {ε α β : Type} {P : β → Prop} {f : β → α → Except ε β}
    {l : List α} {b b' : β}
    (hf : ∀ b a b', P b → f b a = .ok b' → P b') (hb : P b) (h : l.foldlM f b = .ok b') : P b' := by
  induction l generalizing b with
  | nil => cases h; exact hb
  | cons a l ih =>
    rw [List.foldlM_cons] at h
    obtain ⟨b₁, hfirst, hrest⟩ := exists_of_bind_eq_ok h
    exact ih (hf b a b₁ hb hfirst) hrest

/-- The numbers of rows and columns are words. -/
structure GridSize.Words (size : GridSize) : Prop where
  rows : size.rows < Text.wordSize
  columns : size.columns < Text.wordSize

namespace Command

/-- The size of the sheet that a command works on. -/
def size? : Command → Option GridSize
  | evaluate .. => none
  | list _ size | edit _ _ _ size | sample _ size => some size

namespace Progress

variable {p q : Progress} {command : Subcommand}

theorem lt_of_number? {value : String} {n : ℕ} (h : number? value = some n) :
    n < Text.wordSize := by
  unfold number? at h
  split at h <;> exact (Text.word?_eq_some_iff.mp h).2.2

theorem lt_of_once {old new : Option ℕ} {value : String} (h : once old value = .ok new) :
    ∀ n ∈ new, n < Text.wordSize := by
  unfold once at h
  split at h
  · exact nomatch h
  · next hnumber =>
    cases h
    rintro n ⟨⟩
    exact lt_of_number? hnumber
  · exact nomatch h

/-! ### One argument -/

/-- The numbers that have been read are words. -/
structure Sized (p : Progress) : Prop where
  rows : ∀ n ∈ p.rows, n < Text.wordSize
  columns : ∀ n ∈ p.columns, n < Text.wordSize

theorem sized_start : start.Sized where
  rows _ h := nomatch h
  columns _ h := nomatch h

namespace Sized

theorem take (hp : p.Sized) {option : ValueOption} {value : String}
    (h : p.take option value = .ok q) : q.Sized := by
  cases option with
  | binding => cases h; exact ⟨hp.rows, hp.columns⟩
  | rows =>
    obtain ⟨rows, hrows, h⟩ := exists_of_bind_eq_ok h
    cases h
    exact ⟨lt_of_once hrows, hp.columns⟩
  | columns =>
    obtain ⟨columns, hcolumns, h⟩ := exists_of_bind_eq_ok h
    cases h
    exact ⟨hp.rows, lt_of_once hcolumns⟩

theorem settle (hp : p.Sized) (h : p.settle = .ok q) : q.Sized := by
  unfold Progress.settle at h
  split at h
  · cases h; exact hp
  · have hnext : Sized { p with pending := none } := ⟨hp.rows, hp.columns⟩
    exact hnext.take h
  · exact nomatch h

theorem switch (hp : p.Sized) {s : Switch} {value : Option String} (h : p.switch s value = .ok q) :
    q.Sized := by
  unfold Progress.switch at h
  -- a flag other than the first is never passed, and all others begin by settling
  split at h
  · obtain ⟨r, hr, h⟩ := exists_of_bind_eq_ok h
    cases h
    exact ⟨(hp.settle hr).rows, (hp.settle hr).columns⟩
  · obtain ⟨r, -, h⟩ := exists_of_bind_eq_ok h
    exact nomatch h
  · obtain ⟨r, -, h⟩ := exists_of_bind_eq_ok h
    exact nomatch h
  · obtain ⟨r, hr, h⟩ := exists_of_bind_eq_ok h
    exact (hp.settle hr).take h
  · obtain ⟨r, hr, h⟩ := exists_of_bind_eq_ok h
    cases h
    exact ⟨(hp.settle hr).rows, (hp.settle hr).columns⟩

theorem letters {cs : List Char} (hp : p.Sized) (h : p.letters command cs = .ok q) : q.Sized := by
  induction cs generalizing p with
  | nil => cases h; exact hp
  | cons c cs ih =>
    unfold Progress.letters at h
    split at h
    · exact nomatch h
    · obtain ⟨r, hr, h⟩ := exists_of_bind_eq_ok h
      exact ih (hp.switch hr) h
    · exact hp.switch h

theorem positional (hp : p.Sized) {argument : String} (h : p.positional command argument = .ok q) :
    q.Sized := by
  unfold Progress.positional at h
  split at h
  · obtain ⟨r, hr, h⟩ := exists_of_bind_eq_ok h
    cases h
    exact ⟨(hp.settle hr).rows, (hp.settle hr).columns⟩
  · exact nomatch h

theorem value (hp : p.Sized) {argument : String} (h : p.value command argument = .ok q) :
    q.Sized := by
  unfold Progress.value at h
  split at h
  · cases h; exact ⟨hp.rows, hp.columns⟩
  · exact hp.positional h

theorem step (hp : p.Sized) {argument : String} (h : p.step command argument = .ok q) :
    q.Sized := by
  unfold Progress.step at h
  split at h
  · exact hp.positional h
  · split at h
    · cases h; exact ⟨hp.rows, hp.columns⟩
    · split at h
      · split at h
        · exact nomatch h
        · exact hp.switch h
      · exact hp.switch h
      · split at h
        · exact hp.value h
        · exact nomatch h
    · split at h
      · exact hp.value h
      · exact hp.letters h
    · exact hp.value h

/-! ### A command line -/

theorem foldlM_step {arguments : List String} (hp : p.Sized)
    (h : arguments.foldlM (Progress.step command) p = .ok q) : q.Sized :=
  of_foldlM_eq_ok (fun _ _ _ hp h => hp.step h) hp h

theorem words_getD (hp : p.Sized) :
    GridSize.Words ⟨p.rows.getD Grid.defaultRows, p.columns.getD Grid.defaultColumns⟩ := by
  have hgetD : ∀ (old : Option ℕ) (n : ℕ), (∀ m ∈ old, m < Text.wordSize) → n < Text.wordSize →
      old.getD n < Text.wordSize := by
    rintro (_ | m) n hold hn
    · exact hn
    · exact hold m rfl
  exact ⟨hgetD _ _ hp.rows (by decide), hgetD _ _ hp.columns (by decide)⟩

theorem finish (hp : p.Sized) {c : Command} (h : p.finish command = .ok c) :
    ∀ size ∈ c.size?, size.Words := by
  obtain ⟨r, hr, h⟩ := exists_of_bind_eq_ok h
  have hwords := (hp.settle hr).words_getD
  split at h
  · cases h; exact fun _ hsize => nomatch hsize
  · cases h; rintro _ ⟨⟩; exact hwords
  · cases h; rintro _ ⟨⟩; exact hwords
  · cases h; rintro _ ⟨⟩; exact hwords
  · exact nomatch h

end Sized

end Progress

theorem words_of_parseSubcommand {command : Subcommand} {debug : ℕ} {arguments : List String}
    {i : Invocation}
    (h : parseSubcommand command debug arguments = .ok i) :
    ∀ size ∈ i.command.size?, size.Words := by
  obtain ⟨p, hp, h⟩ := exists_of_bind_eq_ok h
  obtain ⟨c, hc, h⟩ := exists_of_bind_eq_ok h
  cases h
  exact (Progress.sized_start.foldlM_step hp).finish hc

theorem words_of_parseFrom {debug : ℕ} {arguments : List String} {i : Invocation}
    (h : parseFrom debug arguments = .ok i) : ∀ size ∈ i.command.size?, size.Words := by
  induction arguments generalizing debug with
  | nil => exact nomatch h
  | cons argument rest ih =>
    unfold parseFrom at h
    split at h
    · exact words_of_parseSubcommand h
    split at h
    · exact nomatch h
    -- what is not the name of a subcommand is refused, or asks for more detail and is passed
    split at h
    · split at h
      · exact nomatch h
      · split at h <;> exact nomatch h
    · split at h
      · exact nomatch h
      · exact ih h
      · exact nomatch h
      · exact nomatch h
      · exact nomatch h
    · obtain ⟨debug', -, h⟩ := exists_of_bind_eq_ok h
      exact ih h
    · exact nomatch h

/-- **The size in a command** that a command line asks for is one of words. -/
theorem words_of_parse {arguments : List String} {i : Invocation} (h : parse arguments = .ok i) :
    ∀ size ∈ i.command.size?, size.Words :=
  words_of_parseFrom h

end Command

end Worksheet
