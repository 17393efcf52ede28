import Worksheet.Proofs.SavedTexts

/-! # Grids with the same texts

Two grids of one size may have the same texts and different values, for a value tells what a formula
referred to when it was entered. The difference is never seen again. The same call is answered alike
on both grids and leaves them with the same texts (`SameTexts.answer_call`, `SameTexts.after_call`),
and where it changes a text it settles the same value (`SameTexts.valueAt_call`). A document makes
the calls of its records, so the three hold of steps as well, and of steps one after the other:
`values_never_feed_back`. -/

namespace Worksheet

open Position

namespace Grid

/-! ### What is seen of steps -/

/-- What a step answers: the outcome of a call, or the report on a document. -/
inductive Answer where
  | call (result : Except Error (Option Change))
  | read (result : Except StorageError LoadReport)

/-- The answer to a step, which is all of its outcome but the grid. -/
def Step.answer (g : Grid) : Step → Answer
  | call c => .call ((c.outcome g).map Prod.snd)
  | read bytes => .read ((g.readDocument bytes).map Prod.snd)

/-- The grid after steps. -/
def after (g : Grid) (steps : List Step) : Grid := steps.foldl Step.after g

/-- The answers to steps, each made on the grid after those before it. -/
def answers : Grid → List Step → List Answer
  | _, [] => []
  | g, s :: steps => s.answer g :: answers (s.after g) steps

/-- The grids have the same size and the same texts. -/
structure SameTexts (g h : Grid) : Prop where
  rows : g.rows = h.rows
  columns : g.columns = h.columns
  textAt : ∀ p, g.textAt p = h.textAt p

/-- One of the calls changes the text at a position. -/
def Alters (p : Position) : Grid → List Call → Prop
  | _, [] => False
  | g, c :: calls => (c.after g).textAt p ≠ g.textAt p ∨ Alters p (c.after g) calls

variable {g h : Grid} {p : Position} {calls : List Call} {steps : List Step}

/-- A text that is another one in the end has been changed by one of the calls. -/
theorem alters_of_textAt_ne (hne : (calls.foldl Call.after g).textAt p ≠ g.textAt p) :
    Alters p g calls := by
  induction calls generalizing g with
  | nil => exact absurd rfl hne
  | cons c calls ih =>
    by_cases hc : (c.after g).textAt p = g.textAt p
    · exact Or.inr (ih (hc ▸ hne))
    · exact Or.inl hc

theorem after_eq_foldl (g : Grid) (steps : List Step) :
    g.after steps = (steps.flatMap Step.calls).foldl Call.after g := by
  rw [after, List.foldl_flatMap]
  simp only [← Step.after_eq_foldl]

theorem wellFormed_after (hg : g.WellFormed) (steps : List Step) : (g.after steps).WellFormed := by
  rw [after_eq_foldl]
  exact (wellFormed_foldl_after hg _).1

/-! ### One call on both grids -/

namespace SameTexts

theorem contains_iff (hs : SameTexts g h) : g.Contains p ↔ h.Contains p := by
  rw [Contains, Contains, hs.rows, hs.columns]

/-- Entering a text gives the same notice, for it is about a value settled by the texts. -/
theorem answer_setText (hs : SameTexts g h) (hg : g.WellFormed) (hh : h.WellFormed) (p : Position)
    (text : String) : (g.setText p text).map Prod.snd = (h.setText p text).map Prod.snd := by
  by_cases hp : g.Contains p
  · obtain ⟨g', change, hset, he, rfl⟩ := exists_entered hg hp text
    obtain ⟨h', change', hset', he', rfl⟩ := exists_entered hh (hs.contains_iff.mp hp) text
    rw [hset, hset', ← hs.textAt]
    by_cases hq : g.textAt p = text ∨ text = ""
    · simp [Except.map, hq]
    · have hne := (not_or.mp hq).1
      have hm := he.settled hne
      have hm' := he'.settled (hs.textAt p ▸ hne)
      rw [← hs.rows, ← hs.columns] at hm'
      have htexts : ∀ q, h'.textAt q = g'.textAt q :=
        fun q => by rw [he.textAt, he'.textAt, hs.textAt]
      have hvalue : g'.valueAt p = h'.valueAt p := hm.eq (hm'.congr fun q _ => htexts q)
      simp [Except.map, hq, hvalue]
  · have hp' : ¬ h.Contains p := fun hn => hp (hs.contains_iff.mpr hn)
    rw [setText_of_not_contains hp, setText_of_not_contains hp']

/-- **A call is answered alike.** -/
theorem answer_call (hs : SameTexts g h) (hg : g.WellFormed) (hh : h.WellFormed) (c : Call) :
    (c.outcome g).map Prod.snd = (c.outcome h).map Prod.snd := by
  cases c with
  | setNamed name text =>
    rcases hname : ofName? name with _ | p
    · simp only [Call.outcome, setTextNamed, hname]
    · simp only [Call.outcome, setTextNamed, hname]
      exact hs.answer_setText hg hh p text
  | set p text => exact hs.answer_setText hg hh p text
  | clearCell p => exact hs.answer_setText hg hh p ""
  | clear => rfl

/-- **A call leaves the same texts.** -/
theorem after_call (hs : SameTexts g h) (hg : g.WellFormed) (hh : h.WellFormed) (c : Call) :
    SameTexts (c.after g) (c.after h) := by
  obtain ⟨hr, hc⟩ := Call.size_after hg c
  obtain ⟨hr', hc'⟩ := Call.size_after hh c
  refine ⟨by rw [hr, hr', hs.rows], by rw [hc, hc', hs.columns], fun p => ?_⟩
  rw [Call.textAt_after hg, Call.textAt_after hh, hs.rows, hs.columns, hs.textAt]

/-- **A call that changes a text settles the same value**, and no call makes equal values
different. -/
theorem valueAt_call (hs : SameTexts g h) (hg : g.WellFormed) (hh : h.WellFormed) {c : Call}
    (hv : (c.after g).textAt p ≠ g.textAt p ∨ g.valueAt p = h.valueAt p) :
    (c.after g).valueAt p = (c.after h).valueAt p := by
  have hafter := hs.after_call hg hh c
  by_cases ht : (c.after g).textAt p = g.textAt p
  · have ht' : (c.after h).textAt p = h.textAt p := by rw [← hafter.textAt, ht, hs.textAt]
    rw [Call.valueAt_after_of_textAt_eq hg ht, Call.valueAt_after_of_textAt_eq hh ht']
    exact hv.resolve_left fun hne => hne ht
  · have ht' : (c.after h).textAt p ≠ h.textAt p := by rwa [← hafter.textAt, ← hs.textAt]
    have hm := Call.means_after_of_textAt_ne hg ht
    have hm' := Call.means_after_of_textAt_ne hh ht'
    rw [← hs.rows, ← hs.columns, ← hafter.textAt] at hm'
    exact hm.eq (hm'.congr fun q _ => (hafter.textAt q).symm)

/-! ### Calls and steps on both grids -/

theorem foldl_calls (hs : SameTexts g h) (hg : g.WellFormed) (hh : h.WellFormed)
    (calls : List Call) : SameTexts (calls.foldl Call.after g) (calls.foldl Call.after h) ∧
      ∀ p, Alters p g calls ∨ g.valueAt p = h.valueAt p →
        (calls.foldl Call.after g).valueAt p = (calls.foldl Call.after h).valueAt p := by
  induction calls generalizing g h with
  | nil => exact ⟨hs, fun p hv => hv.resolve_left id⟩
  | cons c calls ih =>
    obtain ⟨hafter, hvalues⟩ :=
      ih (hs.after_call hg hh c) (Call.wellFormed_after hg c) (Call.wellFormed_after hh c)
    refine ⟨hafter, fun p hv => hvalues p ?_⟩
    rcases hv with (hc | hcalls) | heq
    · exact Or.inr (hs.valueAt_call hg hh (Or.inl hc))
    · exact Or.inl hcalls
    · exact Or.inr (hs.valueAt_call hg hh (Or.inr heq))

theorem after_steps (hs : SameTexts g h) (hg : g.WellFormed) (hh : h.WellFormed)
    (steps : List Step) : SameTexts (g.after steps) (h.after steps) ∧
      ∀ p, Alters p g (steps.flatMap Step.calls) ∨ g.valueAt p = h.valueAt p →
        (g.after steps).valueAt p = (h.after steps).valueAt p := by
  rw [after_eq_foldl, after_eq_foldl]
  exact hs.foldl_calls hg hh _

/-- A step is answered alike: what is counted of a document are records that apply, and that is a
matter of size. -/
theorem answer_step (hs : SameTexts g h) (hg : g.WellFormed) (hh : h.WellFormed) (s : Step) :
    s.answer g = s.answer h := by
  cases s with
  | call c => exact congrArg Answer.call (hs.answer_call hg hh c)
  | read bytes =>
    refine congrArg Answer.read ?_
    rcases hrecords : Document.ofBytes? bytes with _ | records
    · simp only [readDocument, hrecords]
    · have hreport : (g.load records).2 = (h.load records).2 := by
        simp only [snd_load hg, snd_load hh, Record.applies_congr hs.rows hs.columns]
      simp only [readDocument, hrecords, Except.map, hreport]

theorem answers_steps (hs : SameTexts g h) (hg : g.WellFormed) (hh : h.WellFormed)
    (steps : List Step) : g.answers steps = h.answers steps := by
  induction steps generalizing g h with
  | nil => rfl
  | cons s steps ih =>
    have hafter : SameTexts (s.after g) (s.after h) := (hs.after_steps hg hh [s]).1
    rw [answers, answers, hs.answer_step hg hh s,
      ih hafter (wellFormed_after hg [s]) (wellFormed_after hh [s])]

end SameTexts

/-- **Values never feed back.** Take two grids of one size, both as steps have left them, that have
the same texts; their values may differ. Any further steps are answered alike on both: with the same
errors, the same notices and the values in them, and the same reports on documents. After them, and
so at each moment between them, the two grids have the same texts and are written as the same
document, and a cell has the same value in both if its text has been changed by one of the calls,
among them those of the records of documents. -/
theorem values_never_feed_back (hg : g.Reachable) (hh : h.Reachable) (hs : SameTexts g h)
    (steps : List Step) :
    g.answers steps = h.answers steps ∧
    SameTexts (g.after steps) (h.after steps) ∧
    (g.after steps).document = (h.after steps).document ∧
    ∀ p, Alters p g (steps.flatMap Step.calls) →
      (g.after steps).valueAt p = (h.after steps).valueAt p := by
  have hwf := hg.wellFormed
  have hwf' := hh.wellFormed
  obtain ⟨hafter, hvalues⟩ := hs.after_steps hwf hwf' steps
  refine ⟨hs.answers_steps hwf hwf' steps, hafter, ?_, fun p hp => hvalues p (Or.inl hp)⟩
  exact document_congr (wellFormed_after hwf steps) (wellFormed_after hwf' steps) hafter.textAt

/-- A grid whose formula was entered before the text it refers to was changed. -/
def staleSheet : Grid :=
  reach 1 2 [.call (.setNamed "B1" "x"), .call (.setNamed "A1" "=B1"), .call (.setNamed "B1" "y")]

/-- A grid with the same texts whose formula was entered last. -/
def freshSheet : Grid := reach 1 2 [.call (.setNamed "B1" "y"), .call (.setNamed "A1" "=B1")]

theorem sameTexts_stale_fresh : SameTexts staleSheet freshSheet where
  rows := rfl
  columns := rfl
  textAt := textAt_eq_of_forall_lt 1 2 (by decide) (by decide) (by decide)

/-- The value that is out of date is seen in no answer, and is gone when the formula has been
entered in another spelling. -/
theorem stale_value_not_seen :
    staleSheet.Reachable ∧ freshSheet.Reachable ∧ SameTexts staleSheet freshSheet ∧
      staleSheet.valueAt ⟨0, 0⟩ = "x" ∧ freshSheet.valueAt ⟨0, 0⟩ = "y" ∧
      staleSheet.answers [.call (.setNamed "A1" "=b1")] =
        freshSheet.answers [.call (.setNamed "A1" "=b1")] ∧
      (staleSheet.after [.call (.setNamed "A1" "=b1")]).valueAt ⟨0, 0⟩ =
        (freshSheet.after [.call (.setNamed "A1" "=b1")]).valueAt ⟨0, 0⟩ := by
  have hstale : staleSheet.Reachable := ⟨_, _, _, rfl⟩
  have hfresh : freshSheet.Reachable := ⟨_, _, _, rfl⟩
  obtain ⟨hanswers, -, -, hvalues⟩ := values_never_feed_back hstale hfresh sameTexts_stale_fresh
    [.call (.setNamed "A1" "=b1")]
  exact ⟨hstale, hfresh, sameTexts_stale_fresh, by decide, by decide, hanswers,
    hvalues _ (alters_of_textAt_ne (by decide))⟩

end Grid

end Worksheet
