import Worksheet.Proofs.Descent

/-! # The scans of a balanced text

Balance is checked once, for the whole source, and the scans rely on it for every text that is read
on the way down. They may: all these texts are balanced (`balanced_of_mem_texts`). On a balanced
text the place at which it is cut is the last one where the symbol stands between two balanced texts
(`StandsAt`, `lastPlace?_eq_some_iff`). The check counts open parentheses from the left and never
below zero, the cut counts from the right and may; at a symbol of a balanced text either count is
zero exactly if the symbol stands between balanced texts (`standsAt_iff_left`,
`standsAt_iff_right`). `scans_of_balanced_text` puts this together. -/

namespace Worksheet.Expr

open Worksheet.Text

variable {s l r : List Char} {c : Char} {i : ℕ}

/-! ### Depths -/

/-- The number of open parentheses after one more character, if that does not close one which is not
open. -/
def openAfter (n : ℕ) : Char → Option ℕ
  | '(' => some (n + 1)
  | ')' => if n = 0 then none else some (n - 1)
  | _ => some n

/-- The depth after a text that is read from its left end. -/
def depthFromLeft (s : List Char) : Option ℕ := s.foldlM openAfter 0

/-- The depth before a text that is read from its right end. -/
def depthFromRight (s : List Char) : ℤ := s.reverse.foldl (fun depth c => depth + depthStep c) 0

theorem foldlM_openAfter_iff {n : ℕ} : s.foldlM openAfter n = some 0 ↔ closes n s = true := by
  fun_induction closes n s with
  | case1 n => simp
  | case2 n s ih => simpa [openAfter] using ih
  | case3 s => simp [openAfter]
  | case4 n s ih => simpa [openAfter] using ih
  | case5 n c s ho hz hs ih =>
    have hc : c ≠ ')' := by
      rintro rfl
      rcases n with _ | n
      · exact hz rfl rfl
      · exact hs n rfl rfl
    have hstep : openAfter n c = some n := by
      unfold openAfter
      split
      · exact absurd rfl ho
      · exact absurd rfl hc
      · rfl
    simpa [hstep] using ih

/-- **A text is balanced if the depth counted from the left ends at zero.** -/
theorem depthFromLeft_eq_zero_iff : depthFromLeft s = some 0 ↔ Balanced s :=
  foldlM_openAfter_iff.trans isBalanced_iff

theorem depthFromRight_eq_surplus (s : List Char) : depthFromRight s = surplus s := by
  unfold depthFromRight
  rw [List.foldl_reverse]
  induction s with
  | nil => rfl
  | cons c s ih => rw [List.foldr_cons, ih, surplus_cons, Int.add_comm]

/-! ### Places -/

/-- The symbol stands at the place `i` of the text, between two balanced texts. -/
structure StandsAt (s : List Char) (symbol : Char) (i : ℕ) : Prop where
  symbol : s[i]? = some symbol
  before : Balanced (s.take i)
  after : Balanced (s.drop (i + 1))

/-- The place of a symbol at which a text is cut. -/
def lastPlace? (symbol : Char) (s : List Char) : Option ℕ := (cutAtLast? symbol s).map (·.1.length)

theorem eq_append_of_getElem? (h : s[i]? = some c) : s = s.take i ++ c :: s.drop (i + 1) := by
  obtain ⟨hi, rfl⟩ := List.getElem?_eq_some_iff.mp h
  rw [← List.drop_eq_getElem_cons hi, List.take_append_drop]

theorem StandsAt.cuts (h : StandsAt s c i) : Cuts s (s.take i) c (s.drop (i + 1)) :=
  ⟨eq_append_of_getElem? h.symbol, h.before, h.after⟩

theorem StandsAt.length_take (h : StandsAt s c i) : (s.take i).length = i := by
  obtain ⟨hi, -⟩ := List.getElem?_eq_some_iff.mp h.symbol
  rw [List.length_take, min_eq_left hi.le]

theorem Cuts.standsAt (h : Cuts s l c r) : StandsAt s c l.length where
  symbol := by simp [h.eq]
  before := by simpa [h.eq] using h.left
  after := by simpa [h.eq] using h.right

/-- The place tells the texts at the sides. -/
theorem cutAtLast?_eq_map (c : Char) (s : List Char) :
    cutAtLast? c s = (lastPlace? c s).map fun i => (s.take i, s.drop (i + 1)) := by
  unfold lastPlace?
  rcases h : cutAtLast? c s with _ | ⟨l, r⟩
  · rfl
  · simp [eq_append_of_cutAtLast? h]

/-- **On a balanced text the cut is at the last place** between two balanced texts. -/
theorem lastPlace?_eq_some_iff (hs : Balanced s) (hc : depthStep c = 0) :
    lastPlace? c s = some i ↔ IsGreatest {i | StandsAt s c i} i := by
  constructor
  · intro h
    obtain ⟨⟨l, r⟩, hcut, rfl⟩ := Option.map_eq_some_iff.mp h
    have hlast := (cutAtLast?_eq_some_iff hs hc).mp hcut
    refine ⟨hlast.toCuts.standsAt, fun j hj => ?_⟩
    have := hlast.last _ _ hj.cuts
    rwa [hj.length_take] at this
  · rintro ⟨hi, hgreatest⟩
    have hlast : LastCut s (s.take i) c (s.drop (i + 1)) :=
      ⟨hi.cuts, fun l' r' hcut => by rw [hi.length_take]; exact hgreatest hcut.standsAt⟩
    rw [lastPlace?, (cutAtLast?_eq_some_iff hs hc).mpr hlast]
    exact congrArg some hi.length_take

theorem lastPlace?_eq_none_iff (hs : Balanced s) (hc : depthStep c = 0) :
    lastPlace? c s = none ↔ ∀ i, ¬ StandsAt s c i := by
  rw [lastPlace?, Option.map_eq_none_iff, cutAtLast?_eq_none_iff hs hc]
  exact ⟨fun h i hi => h _ _ hi.cuts, fun h l r hcut => h _ hcut.standsAt⟩

/-- **Counted from the left**, the depth is zero at the places between balanced texts. -/
theorem standsAt_iff_left (hs : Balanced s) (hc : depthStep c = 0) (hi : s[i]? = some c) :
    StandsAt s c i ↔ depthFromLeft (s.take i) = some 0 := by
  rw [depthFromLeft_eq_zero_iff]
  refine ⟨StandsAt.before, fun h => ⟨hi, h, ?_⟩⟩
  have heq := eq_append_of_getElem? hi
  have hrest : Balanced (c :: s.drop (i + 1)) := (closes_append_iff h).mp (heq ▸ hs)
  exact (balanced_cons_iff hc).mp hrest

/-- **Counted from the right**, it is so at the same places. -/
theorem standsAt_iff_right (hs : Balanced s) (hc : depthStep c = 0) (hi : s[i]? = some c) :
    StandsAt s c i ↔ depthFromRight (s.drop (i + 1)) = 0 := by
  rw [depthFromRight_eq_surplus]
  refine ⟨fun h => h.after.surplus_eq, fun h => ?_⟩
  have heq := eq_append_of_getElem? hi
  have hcut : Cuts _ _ _ _ := (heq ▸ hs : Balanced (s.take i ++ c :: s.drop (i + 1))).cuts hc h
  exact ⟨hi, hcut.left, hcut.right⟩

/-! ### The texts that are scanned -/

/-- **Every text that is read for a source is balanced.** -/
theorem balanced_of_mem_texts {source : String} {t : List Char}
    (ht : t ∈ (readLogged source).texts) : Balanced t := by
  unfold readLogged at ht
  dsimp only at ht
  split at ht
  · exact absurd ht List.not_mem_nil
  split at ht
  · next hb =>
    have hs := isBalanced_iff.mp hb
    obtain ⟨parts, heq, hparts⟩ := logOf_texts source (maxLevels + 1) (trim source.toList)
    rw [heq] at ht
    rcases List.mem_cons.mp ht with rfl | ht
    · exact hs
    · exact balanced_of_transGen (hparts t ht) hs
  · exact absurd ht List.not_mem_nil

theorem head?_texts {source : String} (hn : ¬ Blank source.toList)
    (hb : isBalanced (trim source.toList) = true) :
    (readLogged source).texts.head? = some (trim source.toList) := by
  obtain ⟨parts, heq, -⟩ := logOf_texts source (maxLevels + 1) (trim source.toList)
  unfold readLogged
  simp [trim_eq_nil_iff, hn, hb, heq]

/-- **The scans are exact on balanced texts, and meet no others.** Reading a source begins with the
source itself, if it is not blank and passes the check, and all the texts that are read for it are
balanced. Let `s` be any balanced text. A pair of parentheses is taken away exactly if it wraps the
whole text and what it wraps is balanced. For each operator, the text is cut at the last place where
the symbol stands between two balanced texts, and not at all if there is no such place; and these
places are those where the depth is zero, whether it is counted from the left or from the right. -/
theorem scans_of_balanced_text (source : String) (hs : Balanced s) :
    (readLogged source).reading = read source ∧
    (¬ Blank source.toList → isBalanced (trim source.toList) = true →
      (readLogged source).texts.head? = some (trim source.toList)) ∧
    (∀ t ∈ (readLogged source).texts, Balanced t) ∧
    (∀ inner, inside? s = some inner ↔ s = '(' :: (inner ++ [')']) ∧ Balanced inner) ∧
    ∀ op : Operator,
      (cutAtLast? op.symbol s = (lastPlace? op.symbol s).map fun i => (s.take i, s.drop (i + 1))) ∧
      (∀ i, lastPlace? op.symbol s = some i ↔ IsGreatest {i | StandsAt s op.symbol i} i) ∧
      (lastPlace? op.symbol s = none ↔ ∀ i, ¬ StandsAt s op.symbol i) ∧
      ∀ i, s[i]? = some op.symbol →
        (StandsAt s op.symbol i ↔ depthFromLeft (s.take i) = some 0) ∧
        (StandsAt s op.symbol i ↔ depthFromRight (s.drop (i + 1)) = 0) := by
  refine ⟨reading_readLogged source, head?_texts, fun _ => balanced_of_mem_texts,
    fun _ => inside?_eq_some_iff,
    fun op => ?_⟩
  have hc := depthStep_symbol op
  refine ⟨cutAtLast?_eq_map op.symbol s, fun _ => lastPlace?_eq_some_iff hs hc,
    lastPlace?_eq_none_iff hs hc,
    fun _ hi => ⟨standsAt_iff_left hs hc hi, standsAt_iff_right hs hc hi⟩⟩

/-- The parentheses at the two ends do not belong together, and the sum is cut at the last of its
operators. -/
theorem last_sum_of_groups : Balanced "(1+2)+3+(4)".toList ∧
    (∀ inner, inside? "(1+2)+3+(4)".toList ≠ some inner) ∧
    IsGreatest {i | StandsAt "(1+2)+3+(4)".toList '+' i} 7 := by
  have hs : Balanced "(1+2)+3+(4)".toList := isBalanced_iff.mp (by decide)
  obtain ⟨-, -, -, hinside, hplaces⟩ := scans_of_balanced_text "(1+2)+3+(4)" hs
  refine ⟨hs, fun inner h => ?_, ((hplaces .add).2.1 7).mp (by decide)⟩
  obtain ⟨heq, hb⟩ := (hinside inner).mp h
  have hinner : "1+2)+3+(4".toList = inner := by
    have htail : "1+2)+3+(4".toList ++ [')'] = inner ++ [')'] := (List.cons.inj heq).2
    exact List.append_cancel_right htail
  have hcheck := isBalanced_iff.mpr (hinner ▸ hb)
  exact absurd hcheck (by decide)

end Worksheet.Expr
