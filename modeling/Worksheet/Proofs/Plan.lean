import Mathlib.Data.List.Basic
import Worksheet.Expr.Parser
import Worksheet.Proofs.Balance
import Worksheet.Proofs.Trimming

/-! # The plan of a text

What is taken away, where the text is split and what its leaves are does not depend on the number of
levels that are left. `plan` tells it without a limit, and the reading of a part is that of its plan
(`readPart_eq_reading`). A plan is read to a tree exactly when all its leaves are operands, none is
missing, and its `levels` are fewer than those that are left (`Plan.result_eq_ok_iff`). -/

namespace Worksheet.Expr

open Worksheet.Text

/-- How a text is taken apart. -/
inductive Plan where
  | blank
  | leaf (text : List Char)
  | paren (inner : Plan)
  | split (op : Operator) (left right : Plan)

namespace Plan

/-- The pairs of parentheses taken away and the splits on the way to the deepest leaf. -/
def levels : Plan → ℕ
  | blank | leaf _ => 0
  | paren inner => inner.levels + 1
  | split _ left right => max left.levels right.levels + 1

/-- The tree of a plan whose leaves are operands. -/
def tree? : Plan → Option (Expr String)
  | blank => none
  | leaf text => (readLeaf text).result.toOption
  | paren inner => inner.tree?
  | split op left right => left.tree?.bind fun l => right.tree?.map (.operation op l)

/-- The reading of a plan for which `n` levels are left. -/
def reading (source : String) : ℕ → Plan → Reading (Expr String)
  | 0, _ => .fail (.tooDeep maxLevels)
  | _ + 1, blank => .fail (.missingOperand source)
  | _ + 1, leaf text => readLeaf text
  | n + 1, paren inner => inner.reading source n
  | n + 1, split op left right => .operation op (left.reading source n) (right.reading source n)

end Plan

variable {source : String} {s t l r : List Char} {op : Operator}

/-! ### Taking a text apart -/

theorem split?_eq_some_iff : split? s = some (op, l, r) ↔ cutAtLast? op.symbol s = some (l, r) ∧
    ∀ a ∈ Operator.splitOrder.takeWhile (· ≠ op), cutAtLast? a.symbol s = none := by
  unfold split?
  rcases ha : cutAtLast? '+' s with _ | p <;> rcases hs : cutAtLast? '-' s with _ | q <;>
  rcases hm : cutAtLast? '*' s with _ | u <;> rcases hd : cutAtLast? '/' s with _ | v <;>
  rcases op <;> simp [Operator.splitOrder, Operator.symbol, *]

theorem split?_eq_none_iff : split? s = none ↔ ∀ op : Operator, cutAtLast? op.symbol s = none := by
  unfold split?
  simp only [List.findSome?_eq_none_iff, Option.map_eq_none_iff]
  constructor
  · intro h op
    exact h op (by rcases op <;> simp [Operator.splitOrder])
  · intro h op _
    exact h op

theorem length_trim_le (s : List Char) : (trim s).length ≤ s.length := by
  obtain ⟨l, r, h, -, -⟩ := exists_eq_append_trim s
  have := congrArg List.length h
  simp only [List.length_append] at this
  omega

theorem length_inside? (h : inside? (trim s) = some t) : t.length < s.length := by
  have := congrArg List.length (eq_wrapped_of_inside? h)
  have := length_trim_le s
  simp only [List.length_cons, List.length_append] at *
  omega

theorem length_split? (h : split? (trim s) = some (op, l, r)) :
    l.length < s.length ∧ r.length < s.length := by
  have := congrArg List.length (eq_append_of_cutAtLast? (split?_eq_some_iff.mp h).1)
  have := length_trim_le s
  simp only [List.length_cons, List.length_append] at *
  omega

/-- The plan of a text. -/
def plan (s : List Char) : Plan :=
  if trim s = [] then .blank
  else match _hi : inside? (trim s) with
    | some inner => .paren (plan inner)
    | none => match _hs : split? (trim s) with
      | some (op, left, right) => .split op (plan left) (plan right)
      | none => .leaf (trim s)
termination_by s.length
decreasing_by
  · exact length_inside? _hi
  · exact (length_split? _hs).1
  · exact (length_split? _hs).2

theorem plan_of_blank (h : trim s = []) : plan s = .blank := by
  rw [plan, if_pos h]

theorem plan_of_inside? (h : inside? (trim s) = some t) : plan s = .paren (plan t) := by
  have hn : trim s ≠ [] := by
    rw [eq_wrapped_of_inside? h]
    exact List.cons_ne_nil _ _
  rw [plan, if_neg hn]
  split
  · next t' h' => rw [Option.some.inj (h'.symm.trans h)]
  · next h' => exact absurd (h'.symm.trans h) (by simp)

theorem plan_of_split? (hi : inside? (trim s) = none) (h : split? (trim s) = some (op, l, r)) :
    plan s = .split op (plan l) (plan r) := by
  have hn : trim s ≠ [] := by
    rw [eq_append_of_cutAtLast? (split?_eq_some_iff.mp h).1]
    simp
  rw [plan, if_neg hn]
  split
  · next h' => exact absurd (h'.symm.trans hi) (by simp)
  split
  · next h' =>
    obtain ⟨rfl, rfl, rfl⟩ : _ = op ∧ _ = l ∧ _ = r := by simpa using h'.symm.trans h
    rfl
  · next h' => exact absurd (h'.symm.trans h) (by simp)

theorem plan_of_leaf (hn : trim s ≠ []) (hi : inside? (trim s) = none)
    (h : split? (trim s) = none) : plan s = .leaf (trim s) := by
  rw [plan, if_neg hn]
  split
  · next h' => exact absurd (h'.symm.trans hi) (by simp)
  split
  · next h' => exact absurd (h'.symm.trans h) (by simp)
  · rfl

theorem plan_eq_of_trim_eq (h : trim s = trim t) : plan s = plan t := by
  by_cases hn : trim s = []
  · rw [plan_of_blank hn]
    exact (plan_of_blank (h ▸ hn)).symm
  rcases hi : inside? (trim s) with _ | u
  · rcases hs : split? (trim s) with _ | ⟨op, l, r⟩
    · rw [plan_of_leaf hn hi hs, h]
      exact (plan_of_leaf (h ▸ hn) (h ▸ hi) (h ▸ hs)).symm
    · rw [plan_of_split? hi hs]
      exact (plan_of_split? (h ▸ hi) (h ▸ hs)).symm
  · rw [plan_of_inside? hi]
    exact (plan_of_inside? (h ▸ hi)).symm

/-! ### What a plan is read to -/

/-- **Parts are read as their plans say.** -/
theorem readPart_eq_reading (source : String) (n : ℕ) (s : List Char) :
    readPart source n s = (plan s).reading source n := by
  induction n generalizing s with
  | zero => rfl
  | succ n ih =>
    unfold readPart
    by_cases hn : trim s = []
    · simp [hn, plan_of_blank hn, Plan.reading]
    simp only [List.isEmpty_iff, hn, if_false]
    rcases hi : inside? (trim s) with _ | t
    · rcases hs : split? (trim s) with _ | ⟨op, l, r⟩
      · rw [plan_of_leaf hn hi hs]
        rfl
      · rw [plan_of_split? hi hs]
        simp only [ih]
        rfl
    · rw [plan_of_inside? hi]
      exact ih t

theorem Reading.operation_result_eq_ok_iff {left right : Reading (Expr String)}
    {tree : Expr String} :
    (Reading.operation op left right).result = .ok tree ↔
      ∃ l r, left.result = .ok l ∧ right.result = .ok r ∧ tree = .operation op l r := by
  unfold Reading.operation
  rcases left with ⟨_ | l, vl⟩ <;> rcases right with ⟨_ | r, vr⟩ <;> simp [Except.map, eq_comm]

theorem Reading.operation_result_eq_error {left right : Reading (Expr String)} {e : Error}
    (h : (Reading.operation op left right).result = .error e) :
    left.result = .error e ∨ right.result = .error e := by
  unfold Reading.operation at h
  rcases left with ⟨_ | l, vl⟩ <;> rcases right with ⟨_ | r, vr⟩ <;>
    simp [Except.map] at h <;> simp [h]

theorem readLeaf_error {e : Error} (h : (readLeaf s).result = .error e) :
    ∃ leaf, e = .invalidOperand leaf := by
  unfold readLeaf at h
  split at h
  · exact absurd h (by simp)
  split at h
  · exact absurd h (by simp)
  · exact ⟨String.ofList s, (Except.error.inj h).symm⟩

namespace Plan

theorem tree?_split {left right : Plan} {tree : Expr String} :
    (split op left right).tree? = some tree ↔
    ∃ l r, left.tree? = some l ∧ right.tree? = some r ∧ tree = .operation op l r := by
  rw [tree?, Option.bind_eq_some_iff]
  simp only [Option.map_eq_some_iff]
  constructor
  · rintro ⟨l, hl, r, hr, rfl⟩
    exact ⟨l, r, hl, hr, rfl⟩
  · rintro ⟨l, r, hl, hr, rfl⟩
    exact ⟨l, hl, r, hr, rfl⟩

/-- **A plan is read to its tree, when its levels are fewer than those that are left.** -/
theorem result_eq_ok_iff {p : Plan} {n : ℕ} {tree : Expr String} :
    (p.reading source n).result = .ok tree ↔ p.tree? = some tree ∧ p.levels < n := by
  induction n generalizing p tree with
  | zero => simp [reading, Reading.fail]
  | succ n ih =>
    rcases p with _ | text | inner | ⟨op, left, right⟩
    · simp [reading, tree?, Reading.fail]
    · rcases h : (readLeaf text).result <;> simp [reading, tree?, levels, h, Except.toOption]
    · simp [reading, tree?, levels, ih]
    · rw [reading, Reading.operation_result_eq_ok_iff, tree?_split]
      simp only [ih, levels]
      constructor
      · rintro ⟨l, r, ⟨hl, hln⟩, ⟨hr, hrn⟩, rfl⟩
        exact ⟨⟨l, r, hl, hr, rfl⟩, by omega⟩
      · rintro ⟨⟨l, r, hl, hr, rfl⟩, hn⟩
        exact ⟨l, r, ⟨hl, by omega⟩, ⟨hr, by omega⟩, rfl⟩

/-- An error is that of the levels, unless the plan has no tree for want of an operand. -/
theorem error_cases {p : Plan} {n : ℕ} {e : Error} (h : (p.reading source n).result = .error e) :
    e = .tooDeep maxLevels ∨
      p.tree? = none ∧ (e = .missingOperand source ∨ ∃ leaf, e = .invalidOperand leaf) := by
  induction n generalizing p with
  | zero => exact Or.inl (Except.error.inj h).symm
  | succ n ih =>
    rcases p with _ | text | inner | ⟨op, left, right⟩
    · exact Or.inr ⟨rfl, Or.inl (Except.error.inj h).symm⟩
    · have hleaf : (readLeaf text).result = .error e := h
      refine Or.inr ⟨by simp [tree?, hleaf, Except.toOption], Or.inr ?_⟩
      exact readLeaf_error hleaf
    · have hinner : (inner.reading source n).result = .error e := h
      have := ih hinner
      rwa [tree?]
    · rcases Reading.operation_result_eq_error h with h | h
      · rcases ih h with h | ⟨hn, h⟩
        · exact Or.inl h
        · exact Or.inr ⟨by simp [tree?, hn], h⟩
      · rcases ih h with h | ⟨hn, h⟩
        · exact Or.inl h
        · exact Or.inr ⟨by simp [tree?, hn], h⟩

end Plan

/-! ### Blanks around a part -/

theorem depthStep_of_isBlank {c : Char} (h : isBlank c = true) : depthStep c = 0 := by
  refine depthStep_eq_zero ?_ ?_
  · rintro rfl
    revert h
    decide
  · rintro rfl
    revert h
    decide

theorem balanced_of_blank (h : Blank s) : Balanced s :=
  balanced_of_depthStep fun c hc => depthStep_of_isBlank (h c hc)

theorem balanced_pad_iff {m : List Char} (hl : Blank l) (hr : Blank r) :
    Balanced (l ++ m ++ r) ↔ Balanced m := by
  constructor
  · intro h
    have hs : surplus (l ++ m) = 0 := by
      have := h.surplus_eq
      rw [surplus_append, (balanced_of_blank hr).surplus_eq] at this
      omega
    exact (closes_append_iff (balanced_of_blank hl)).mp (h.of_append hs).1
  · intro h
    exact ((balanced_of_blank hl).append h).append (balanced_of_blank hr)

theorem balanced_trim_iff : Balanced (trim s) ↔ Balanced s := by
  obtain ⟨l, r, h, hl, hr⟩ := exists_eq_append_trim s
  rw [h, trim_pad hl hr, trim_trim, balanced_pad_iff hl hr]

/-! ### What a source is read to -/

theorem read_of_blank (h : Blank source.toList) : (read source).result = .ok none := by
  unfold read
  simp [trim_eq_nil_iff.mpr h]

theorem read_of_not_balanced (hn : ¬ Blank source.toList) (h : ¬ Balanced source.toList) :
    (read source).result = .error (.unbalanced (String.ofList (trim source.toList))) := by
  have hb : isBalanced (trim source.toList) = false :=
    Bool.eq_false_iff.mpr fun hb => h (balanced_trim_iff.mp (isBalanced_iff.mp hb))
  unfold read
  simp [trim_eq_nil_iff, hn, hb, Reading.fail]

/-- **A balanced source is read as its plan says.** -/
theorem read_of_balanced (hn : ¬ Blank source.toList) (h : Balanced source.toList) :
    read source = ((plan source.toList).reading source (maxLevels + 1)).map some := by
  have hb : isBalanced (trim source.toList) = true := isBalanced_iff.mpr (balanced_trim_iff.mpr h)
  have hp : plan (trim source.toList) = plan source.toList := plan_eq_of_trim_eq (trim_trim _)
  unfold read
  simp [trim_eq_nil_iff, hn, hb, readPart_eq_reading, hp]

end Worksheet.Expr
