import Mathlib.Logic.Relation
import Mathlib.Order.Bounds.Defs
import Worksheet.Proofs.Grammar

/-! # The way down to the leaves

To read a text, parts of it are read: what stands in a pair of parentheses, or the sides of an
operator (`Reads`). A part is shorter than the text, and balanced if the text is. `readPartLogged`
reads as `readPart` does and keeps the texts that are read on the way; all of them are parts of the
first one (`logOf_texts`).

The levels of a plan are the steps of the longest way down (`isGreatest_levels`). `readFreely` reads
without a limit on them, and `readAt` from a given depth on: where the former finds a tree, so does
the latter, unless the way down passes the limit. `starting_depth_decides_too_deep` is the statement
on all texts. -/

namespace Worksheet.Expr

open Worksheet.Text Relation

variable {source : String} {s t l r : List Char} {op : Operator} {depth n : ℕ} {tree : Expr String}

/-! ### One step down -/

/-- To read the first text the second one is read, which is what a pair of parentheses wraps, or a
side of the operator at which the text is split. -/
inductive Reads (s : List Char) : List Char → Prop
  | inside {t : List Char} (h : inside? (trim s) = some t) : Reads s t
  | left {op : Operator} {l r : List Char} (hi : inside? (trim s) = none)
    (h : split? (trim s) = some (op, l, r)) : Reads s l
  | right {op : Operator} {l r : List Char} (hi : inside? (trim s) = none)
    (h : split? (trim s) = some (op, l, r)) : Reads s r

namespace Reads

/-- **A text that is read on the way is shorter.** -/
theorem length_lt (h : Reads s t) : t.length < s.length := by
  cases h with
  | inside h => exact length_inside? h
  | left _ h => exact (length_split? h).1
  | right _ h => exact (length_split? h).2

/-- **A balanced text is read by balanced texts.** -/
theorem balanced (h : Reads s t) (hs : Balanced s) : Balanced t := by
  have ht := balanced_trim_iff.mpr hs
  cases h with
  | inside h => exact (inside?_eq_some_iff.mp h).2
  | left _ h => exact (lastCut_of_split? ht h).left
  | right _ h => exact (lastCut_of_split? ht h).right

theorem levels_lt (h : Reads s t) : (plan t).levels < (plan s).levels := by
  cases h with
  | inside h =>
    rw [plan_of_inside? h, Plan.levels]
    omega
  | left hi h =>
    rw [plan_of_split? hi h, Plan.levels]
    omega
  | right hi h =>
    rw [plan_of_split? hi h, Plan.levels]
    omega

end Reads

theorem length_lt_of_transGen (h : TransGen Reads s t) : t.length < s.length := by
  induction h with
  | single h => exact h.length_lt
  | tail _ h ih => exact h.length_lt.trans ih

theorem balanced_of_transGen (h : TransGen Reads s t) (hs : Balanced s) : Balanced t := by
  induction h with
  | single h => exact h.balanced hs
  | tail _ h ih => exact h.balanced ih

/-! ### Ways down -/

/-- There is a way of `n` steps down from the text. Each takes away a pair of parentheses or goes to
a side of an operator. -/
inductive Descends : List Char → ℕ → Prop
  | stay (s : List Char) : Descends s 0
  | down {s t : List Char} {n : ℕ} (h : Reads s t) (hd : Descends t n) : Descends s (n + 1)

theorem Descends.le_levels (h : Descends s n) : n ≤ (plan s).levels := by
  induction h with
  | stay s => exact Nat.zero_le _
  | down h _ ih => exact ih.trans_lt h.levels_lt

theorem descends_levels (s : List Char) : Descends s (plan s).levels := by
  fun_induction plan s with
  | case1 s => exact .stay s
  | case2 s _ inner hi ih => exact .down (.inside hi) ih
  | case3 s _ hi op left right hs ihl ihr =>
    rw [Plan.levels]
    rcases le_total (plan left).levels (plan right).levels with h | h
    · rw [max_eq_right h]
      exact .down (.right hi hs) ihr
    · rw [max_eq_left h]
      exact .down (.left hi hs) ihl
  | case4 s => exact .stay s

/-- **The levels of a text are the steps of the longest way down.** -/
theorem isGreatest_levels (s : List Char) : IsGreatest {n | Descends s n} (plan s).levels :=
  ⟨descends_levels s, fun _ h => h.le_levels⟩

/-! ### The texts that are read -/

/-- A reading with the texts that were read for it, in the order in which their readings began. -/
structure Logged (α : Type) where
  reading : Reading α
  texts : List (List Char)

/-- The reading of a part with the texts that are read for it. The right side of an operator is read
only after the left one has been. -/
def readPartLogged (source : String) : (levels : ℕ) → List Char → Logged (Expr String)
  | 0, part => ⟨.fail (.tooDeep maxLevels), [part]⟩
  | levels + 1, part =>
    let text := trim part
    if text.isEmpty then ⟨.fail (.missingOperand source), [part]⟩
    else match inside? text with
      | some inner =>
        let log := readPartLogged source levels inner
        ⟨log.reading, part :: log.texts⟩
      | none => match split? text with
        | some (op, left, right) =>
          let log := readPartLogged source levels left
          match log.reading.result with
          | .error e => ⟨⟨.error e, log.reading.vars⟩, part :: log.texts⟩
          | .ok _ =>
            let log' := readPartLogged source levels right
            ⟨.operation op log.reading log'.reading, part :: (log.texts ++ log'.texts)⟩
        | none => ⟨readLeaf text, [part]⟩

theorem reading_readPartLogged (source : String) (n : ℕ) (s : List Char) :
    (readPartLogged source n s).reading = readPart source n s := by
  induction n generalizing s with
  | zero => rfl
  | succ n ih =>
    unfold readPartLogged readPart
    dsimp only
    split
    · rfl
    rcases hi : inside? (trim s) with _ | t
    · rcases hs : split? (trim s) with _ | ⟨op, l, r⟩
      · rfl
      · dsimp only
        rw [← ih l, ← ih r]
        rcases hl : (readPartLogged source n l).reading.result with e | tree
        · simp [Reading.operation, hl]
        · rfl
    · exact ih t

/-- **The texts that are read for a part** are the part itself, and then those that are read for
what stands in its parentheses, or for its left side and, if that is read to a tree, for its right
side. -/
theorem texts_readPartLogged (source : String) (n : ℕ) (s : List Char) :
    (readPartLogged source (n + 1) s).texts = s ::
      if (trim s).isEmpty then []
      else match inside? (trim s) with
        | some inner => (readPartLogged source n inner).texts
        | none => match split? (trim s) with
          | some (_, left, right) => (readPartLogged source n left).texts ++
              match (readPart source n left).result with
              | .ok _ => (readPartLogged source n right).texts
              | .error _ => []
          | none => [] := by
  rw [readPartLogged]
  dsimp only
  split
  · rfl
  rcases hi : inside? (trim s) with _ | t
  · rcases hs : split? (trim s) with _ | ⟨op, l, r⟩
    · rfl
    · dsimp only
      rw [← reading_readPartLogged source n l]
      rcases (readPartLogged source n l).reading.result with e | tree
      · simp
      · rfl
  · rfl

/-- The reading of a source with the texts that are read for it. -/
def readLogged (source : String) : Logged (Option (Expr String)) :=
  let text := trim source.toList
  if text.isEmpty then ⟨⟨.ok none, []⟩, []⟩
  else if isBalanced text then
    let log := readPartLogged source (maxLevels + 1) text
    ⟨log.reading.map some, log.texts⟩
  else ⟨.fail (.unbalanced (String.ofList text)), []⟩

theorem reading_readLogged (source : String) : (readLogged source).reading = read source := by
  unfold readLogged read
  dsimp only
  split
  · rfl
  split
  · rw [reading_readPartLogged]
  · rfl

/-- The texts begin with `s`, and all others are parts of it. -/
def LogOf (s : List Char) (texts : List (List Char)) : Prop :=
  ∃ parts, texts = s :: parts ∧ ∀ t ∈ parts, TransGen Reads s t

theorem logOf_singleton (s : List Char) : LogOf s [s] := ⟨[], rfl, by simp⟩

theorem LogOf.transGen {texts : List (List Char)} (ht : LogOf t texts) (h : Reads s t) :
    ∀ u ∈ texts, TransGen Reads s u := by
  obtain ⟨parts, rfl, hparts⟩ := ht
  intro u hu
  rcases List.mem_cons.mp hu with rfl | hu
  · exact .single h
  · exact .head h (hparts u hu)

/-- **What is read for a text are its parts**, after the text itself. -/
theorem logOf_texts (source : String) (n : ℕ) (s : List Char) :
    LogOf s (readPartLogged source n s).texts := by
  induction n generalizing s with
  | zero => exact logOf_singleton s
  | succ n ih =>
    rw [texts_readPartLogged]
    split
    · exact logOf_singleton s
    rcases hi : inside? (trim s) with _ | t
    · rcases hs : split? (trim s) with _ | ⟨op, l, r⟩
      · exact logOf_singleton s
      · have hleft := (ih l).transGen (.left hi hs)
        have hright := (ih r).transGen (.right hi hs)
        refine ⟨_, rfl, fun u hu => ?_⟩
        rcases List.mem_append.mp hu with hu | hu
        · exact hleft u hu
        · split at hu
          · exact hright u hu
          · exact absurd hu List.not_mem_nil
    · exact ⟨_, rfl, (ih t).transGen (.inside hi)⟩

/-! ### Reading without a limit -/

/-- The reading of a part, however many levels it has. -/
def readFreely (source : String) (part : List Char) : Reading (Expr String) :=
  let text := trim part
  if text.isEmpty then .fail (.missingOperand source)
  else match _hi : inside? text with
    | some inner => readFreely source inner
    | none => match _hs : split? text with
      | some (op, left, right) => .operation op (readFreely source left) (readFreely source right)
      | none => readLeaf text
termination_by part.length
decreasing_by
  · exact (Reads.inside _hi).length_lt
  · exact (Reads.left _hi _hs).length_lt
  · exact (Reads.right _hi _hs).length_lt

/-- **More levels than characters are no limit.** -/
theorem readPart_eq_readFreely (source : String) (h : s.length < n) :
    readPart source n s = readFreely source s := by
  induction n generalizing s with
  | zero => exact absurd h (Nat.not_lt_zero _)
  | succ n ih =>
    have hpart : ∀ {t : List Char}, Reads s t →
        readPart source n t = readFreely source t := fun hr => by
      have := hr.length_lt
      exact ih (by omega)
    unfold readPart readFreely
    dsimp only
    split
    · rfl
    split
    · next hi => rw [hi, hpart (.inside hi)]
    · next hi =>
      rw [hi]
      split
      · next hs => rw [hs, hpart (.left hi hs), hpart (.right hi hs)]
      · next hs => rw [hs]

theorem readFreely_eq_ok_iff : (readFreely source s).result = .ok tree ↔
    (plan s).tree? = some tree := by
  have hn : s.length < max s.length (plan s).levels + 1 := by omega
  rw [← readPart_eq_readFreely source hn, readPart_eq_reading, Plan.result_eq_ok_iff,
    and_iff_left (by omega)]

/-! ### Reading from a depth on -/

/-- The reading of a part that lies in so many pairs of parentheses and splits. -/
def readAt (source : String) (depth : ℕ) (part : List Char) : Reading (Expr String) :=
  readPart source (maxLevels + 1 - depth) part

/-- **The depth grows by one at each step down**, and nothing is read below the limit. -/
theorem readAt_eq (source : String) (depth : ℕ) (s : List Char) : readAt source depth s =
    if maxLevels < depth then .fail (.tooDeep maxLevels)
    else if (trim s).isEmpty then .fail (.missingOperand source)
    else match inside? (trim s) with
      | some inner => readAt source (depth + 1) inner
      | none => match split? (trim s) with
        | some (op, left, right) =>
          .operation op (readAt source (depth + 1) left) (readAt source (depth + 1) right)
        | none => readLeaf (trim s) := by
  unfold readAt
  split
  · next h =>
    rw [Nat.sub_eq_zero_of_le h]
    rfl
  · next h =>
    obtain ⟨n, hn⟩ : ∃ n, maxLevels - depth = n := ⟨_, rfl⟩
    rw [Nat.sub_add_comm (not_lt.mp h), Nat.add_sub_add_right, hn]
    rfl

/-- **From which depth on a text is read** decides only whether the way down passes the limit. -/
theorem readAt_result (h : (readFreely source s).result = .ok tree) (depth : ℕ) :
    (readAt source depth s).result =
    if depth + (plan s).levels ≤ maxLevels then .ok tree else .error (.tooDeep maxLevels) := by
  have htree := readFreely_eq_ok_iff.mp h
  rw [readAt, readPart_eq_reading]
  split
  · exact Plan.result_eq_ok_iff.mpr ⟨htree, by omega⟩
  · rcases hr : ((plan s).reading source (maxLevels + 1 - depth)).result with e | t
    · rcases Plan.error_cases hr with rfl | ⟨hnone, -⟩
      · rfl
      · exact absurd (hnone.symm.trans htree) (by simp)
    · have hlevels := (Plan.result_eq_ok_iff.mp hr).2
      omega

/-! ### How deep trees are -/

/-- A tree is no deeper than its plan. -/
theorem Plan.depth_le {p : Plan} (h : p.tree? = some tree) : tree.depth ≤ p.levels + 1 := by
  induction p generalizing tree with
  | blank => exact absurd h (by simp [Plan.tree?])
  | leaf text =>
    rcases tree?_leaf.mp h with ⟨-, -⟩ | ⟨-, -⟩ <;> exact Nat.le_refl 1
  | paren inner ih => exact (ih h).trans (Nat.le_succ _)
  | split op left right ihl ihr =>
    obtain ⟨l, r, hl, hr, rfl⟩ := Plan.tree?_split.mp h
    have := ihl hl
    have := ihr hr
    rw [Expr.depth, Plan.levels]
    omega

/-- A sum of ones with so many operators. -/
def sumOfOnes : ℕ → List Char
  | 0 => ['1']
  | n + 1 => sumOfOnes n ++ ['+', '1']

theorem head?_sumOfOnes (n : ℕ) : (sumOfOnes n).head? = some '1' := by
  induction n with
  | zero => rfl
  | succ n ih => simp [sumOfOnes, ih]

theorem plan_sumOfOnes_succ (n : ℕ) :
    plan (sumOfOnes (n + 1)) = .split .add (plan (sumOfOnes n)) (plan ['1']) := by
  have hhead := head?_sumOfOnes (n + 1)
  have hlast : (sumOfOnes (n + 1)).getLast? = some '1' := by simp [sumOfOnes]
  have htrim : trim (sumOfOnes (n + 1)) = sumOfOnes (n + 1) :=
    trim_eq_self (by simp [hhead, isBlank, blankRanges]) (by simp [hlast, isBlank, blankRanges])
  have hi : inside? (sumOfOnes (n + 1)) = none := by
    refine Option.eq_none_iff_forall_ne_some.mpr fun t ht => ?_
    rw [eq_wrapped_of_inside? ht] at hhead
    exact absurd hhead (by simp)
  have hcut : cutAtLast? '+' (sumOfOnes (n + 1)) = some (sumOfOnes n, ['1']) := by
    simp [sumOfOnes, cutAtLast?, cutFromRight?, depthStep]
  refine plan_of_split? (by rwa [htrim]) ?_
  rw [htrim]
  exact split?_eq_some_iff.mpr ⟨hcut, by simp [Operator.splitOrder]⟩

/-- **As many levels as there are operators, and a tree one deeper.** -/
theorem exists_tree_sumOfOnes (n : ℕ) : (plan (sumOfOnes n)).levels = n ∧
    ∃ tree, (plan (sumOfOnes n)).tree? = some tree ∧ tree.depth = n + 1 := by
  have hone : plan ['1'] = .leaf ['1'] := by
    simpa using plan_operand blank_nil (.number (by simp) (by simp)) blank_nil
  have htree : (Plan.leaf ['1']).tree? = some (.const "1") :=
    tree?_leaf.mpr (.number (by simp) (by simp))
  induction n with
  | zero => exact ⟨by rw [sumOfOnes, hone]; rfl, .const "1", by rw [sumOfOnes, hone, htree], rfl⟩
  | succ n ih =>
    obtain ⟨hlevels, tree, ht, hdepth⟩ := ih
    rw [plan_sumOfOnes_succ, hone]
    refine ⟨?_, .operation .add tree (.const "1"),
      Plan.tree?_split.mpr ⟨tree, _, ht, htree, rfl⟩, ?_⟩
    · rw [Plan.levels, hlevels, Plan.levels]
      omega
    · rw [Expr.depth, hdepth, Expr.depth]
      omega

/-! ### The limit -/

/-- **The depth from which a text is read decides only whether it lies too deep.** Every text has a
nesting cost, the steps of the longest way down to a leaf. If the text is read to a tree when there
is no limit, it is read to the same tree from every depth which is at most 256 together with the
cost, and is too deep from any other. Every text that is read on the way is shorter, so that a limit
above the number of characters is none. A tree that is read is deeper than the cost by one at most,
which makes 257 levels at most, and there are sources for each cost whose trees are that deep. -/
theorem starting_depth_decides_too_deep :
    (∀ s : List Char, ∃ cost, IsGreatest {n | Descends s n} cost ∧
      (∀ source tree, (readFreely source s).result = .ok tree →
        ∀ depth, (readAt source depth s).result =
        if depth + cost ≤ 256 then .ok tree else .error (.tooDeep 256)) ∧
      (∀ source depth tree, (readAt source depth s).result = .ok tree → tree.depth ≤ cost + 1 ∧
        cost + 1 ≤ 257)) ∧
    (∀ source n (s : List Char), (readPartLogged source n s).reading = readPart source n s ∧
      ∃ parts, (readPartLogged source n s).texts = s :: parts ∧ ∀ t ∈ parts, t.length < s.length) ∧
    (∀ source n (s : List Char), s.length < n → readPart source n s = readFreely source s) ∧
    ∀ cost ≤ 256, ∃ source tree, IsGreatest {n | Descends source.toList n} cost ∧
      (read source).result = .ok (some tree) ∧ tree.depth = cost + 1 := by
  refine ⟨fun s => ⟨(plan s).levels, isGreatest_levels s,
    fun _ _ h => readAt_result h, fun source depth tree h => ?_⟩,
    fun source n s => ?_, fun source n s => readPart_eq_readFreely source, fun cost hcost => ?_⟩
  · rw [readAt, readPart_eq_reading] at h
    obtain ⟨htree, hlevels⟩ := Plan.result_eq_ok_iff.mp h
    have hmax : maxLevels = 256 := rfl
    exact ⟨Plan.depth_le htree, by omega⟩
  · obtain ⟨parts, heq, hparts⟩ := logOf_texts source n s
    exact ⟨reading_readPartLogged source n s, parts, heq,
      fun t ht => length_lt_of_transGen (hparts t ht)⟩
  · obtain ⟨hlevels, tree, htree, hdepth⟩ := exists_tree_sumOfOnes cost
    refine ⟨String.ofList (sumOfOnes cost), tree, ?_, ?_, hdepth⟩
    · have := isGreatest_levels (sumOfOnes cost)
      rwa [hlevels, ← String.toList_ofList (l := sumOfOnes cost)] at this
    · refine read_eq_ok_some_iff.mpr ?_
      rw [String.toList_ofList, hlevels]
      exact ⟨htree, hcost⟩

end Worksheet.Expr
