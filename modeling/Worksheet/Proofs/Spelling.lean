import Worksheet.Calculator
import Worksheet.Proofs.Grammar

/-! # Spellings of a tree

A tree is spelled with every operation in parentheses of its own, any number of further pairs around
each part, and blanks anywhere between (`Spelling`). Nothing in such a text but the operator of an
operation stands outside the parentheses of its parts (`Spelling.not_cuts`), so it is taken apart as
it was put together (`Spelling.exists_plan`), and the tree is read again (`tree_read_from_spelling`)
unless its levels are too many. -/

namespace Worksheet.Expr

open Worksheet.Text

variable {α : Type} {value : String → α} {tree left right : Expr α} {i j n : ℕ}
variable {s t l m r p q : List Char} {op : Operator}

/-- **The spellings of a tree** whose constants are the values of digit runs, with their levels: the
pairs of parentheses and the operators on the way to the deepest leaf. -/
inductive Spelling (value : String → α) : Expr α → ℕ → List Char → Prop
  | operand {s : List Char} {leaf : Expr String} (h : Operand s leaf) :
      Spelling value (leaf.map value) 0 s
  | operation (op : Operator) {left right : Expr α} {i j : ℕ} {l r : List Char}
      (hl : Spelling value left i l)
    (hr : Spelling value right j r) :
    Spelling value (.operation op left right) (max i j + 2) ('(' :: (l ++ op.symbol :: r ++ [')']))
  | group {tree : Expr α} {n : ℕ} {s : List Char} (h : Spelling value tree n s) :
    Spelling value tree (n + 1) ('(' :: (s ++ [')']))
  | pad {tree : Expr α} {n : ℕ} {p s q : List Char} (hp : Blank p) (h : Spelling value tree n s)
      (hq : Blank q) : Spelling value tree n (p ++ s ++ q)

/-- The second text is the first one without the outermost pair of parentheses. -/
def Unwraps (s t : List Char) : Prop :=
  ∃ p m q, Blank p ∧ Blank q ∧ s = p ++ '(' :: (m ++ [')']) ++ q ∧ t = p ++ m ++ q

/-- The constants of a tree are values of digit runs, and its variables are identifiers. -/
def Spellable (value : String → α) : Expr α → Prop
  | const v => ∃ digits, Operand digits (.const (String.ofList digits)) ∧
      value (String.ofList digits) = v
  | var name => Operand name.toList (.var name)
  | operation _ left right => left.Spellable value ∧ right.Spellable value

/-! ### How a spelling is taken apart -/

theorem trim_wrapped (m : List Char) : trim ('(' :: (m ++ [')'])) = '(' :: (m ++ [')']) := by
  simpa using trim_group (m := m) blank_nil blank_nil

theorem plan_wrapped (h : Balanced m) : plan ('(' :: (m ++ [')'])) = .paren (plan m) := by
  simpa using plan_group blank_nil h blank_nil

theorem plan_pad (hp : Blank p) (hq : Blank q) : plan (p ++ m ++ q) = plan m :=
  plan_eq_of_trim_eq (trim_pad hp hq)

namespace Spelling

theorem balanced (h : Spelling value tree n s) : Balanced s := by
  induction h with
  | operand h => exact h.balanced
  | operation op _ _ hl hr =>
    exact (hl.append ((balanced_cons_iff (depthStep_symbol op)).mpr hr)).wrap
  | group _ ih => exact ih.wrap
  | pad hp _ hq ih => exact (balanced_pad_iff hp hq).mpr ih

theorem balanced_operation (hl : Spelling value left i l) (hr : Spelling value right j r)
    (op : Operator) : Balanced (l ++ op.symbol :: r) :=
  hl.balanced.append ((balanced_cons_iff (depthStep_symbol op)).mpr hr.balanced)

/-- **No operator of a spelling** stands outside all parentheses. -/
theorem not_cuts (h : Spelling value tree n s) (op : Operator) : ¬ Cuts s l op.symbol r := by
  induction h generalizing l r with
  | operand h => simpa using not_cuts_operand blank_nil h blank_nil
  | operation a hl hr => exact not_cuts_wrap (hl.balanced_operation hr a) (depthStep_symbol op)
  | group h => exact not_cuts_wrap h.balanced (depthStep_symbol op)
  | pad hp _ hq ih =>
    intro hc
    obtain ⟨l', r', -, -, hc⟩ := hc.of_pad hp hq (isBlank_symbol op)
    exact ih hc

/-- A spelled operation is split at its operator. -/
theorem plan_operation (hl : Spelling value left i l) (hr : Spelling value right j r)
    (op : Operator) : plan (l ++ op.symbol :: r) = .split op (plan l) (plan r) := by
  obtain ⟨a, l', r', hplan, hc⟩ :=
    exists_plan_split (hl.balanced_operation hr op) ⟨rfl, hl.balanced, hr.balanced⟩
  rcases hc.of_operation hl.balanced hr.balanced with ⟨rfl, ha, rfl⟩ | ⟨x, hx, -⟩ | ⟨x, hx, -⟩
  · rw [hplan, symbol_injective ha]
  · exact absurd hx (hl.not_cuts a)
  · exact absurd hx (hr.not_cuts a)

/-- **A spelling is taken apart as it was put together.** -/
theorem exists_plan (h : Spelling value tree n s) :
    ∃ t, (plan s).tree? = some t ∧ t.map value = tree ∧ (plan s).levels = n := by
  induction h with
  | @operand s leaf h =>
    have hplan : plan s = .leaf s := by simpa using plan_operand blank_nil h blank_nil
    rw [hplan]
    exact ⟨leaf, tree?_leaf.mpr h, rfl, rfl⟩
  | @operation op left right i j l r hl hr ihl ihr =>
    obtain ⟨tl, htl, rfl, rfl⟩ := ihl
    obtain ⟨tr, htr, rfl, rfl⟩ := ihr
    rw [plan_wrapped (hl.balanced_operation hr op), hl.plan_operation hr op]
    exact ⟨.operation op tl tr, Plan.tree?_split.mpr ⟨tl, tr, htl, htr, rfl⟩, rfl, rfl⟩
  | group h ih =>
    obtain ⟨t, ht, rfl, rfl⟩ := ih
    rw [plan_wrapped h.balanced]
    exact ⟨t, ht, rfl, rfl⟩
  | pad hp h hq ih =>
    rw [plan_pad hp hq]
    exact ih

/-- The parentheses around a spelling belong to each other. -/
theorem balanced_inside (h : Spelling value tree n s) (hs : trim s = '(' :: (m ++ [')'])) :
    Balanced m := by
  induction h with
  | operand h =>
    have ht := h.trim_eq blank_nil blank_nil
    rw [List.nil_append, List.append_nil, hs] at ht
    exact absurd (ht ▸ List.mem_cons_self) h.open_not_mem
  | operation op hl hr =>
    rw [trim_wrapped] at hs
    have hm := List.append_cancel_right (List.cons.inj hs).2
    exact hm ▸ hl.balanced_operation hr op
  | group h =>
    rw [trim_wrapped] at hs
    have hm := List.append_cancel_right (List.cons.inj hs).2
    exact hm ▸ h.balanced
  | pad hp _ hq ih =>
    rw [trim_pad hp hq] at hs
    exact ih hs

/-- Without the outermost parentheses a spelling is taken apart like its inside. -/
theorem plan_of_unwraps (h : Spelling value tree n s) (hu : Unwraps s t) :
    plan s = .paren (plan t) := by
  obtain ⟨p, m, q, hp, hq, rfl, rfl⟩ := hu
  rw [plan_group hp (h.balanced_inside (trim_group hp hq)) hq, plan_pad hp hq]

end Spelling

/-! ### What is read -/

theorem map_eq_ok_some_iff {β : Type} {f : β → α} {x : Except Error (Option β)} {a : α} :
    x.map (Option.map f) = .ok (some a) ↔ ∃ b, x = .ok (some b) ∧ f b = a := by
  rcases x with e | _ | b <;> simp [Except.map]

/-- A text whose plan has the tree is read to it, if the levels of the plan are not too many. -/
theorem read_eq_ok_iff_levels {source : String} {t : Expr String}
    (ht : (plan source.toList).tree? = some t) :
    (read source).result.map (Option.map (Expr.map value)) = .ok (some (t.map value)) ↔
      (plan source.toList).levels ≤ maxLevels := by
  rw [map_eq_ok_some_iff]
  constructor
  · rintro ⟨u, hu, -⟩
    exact (read_eq_ok_some_iff.mp hu).2
  · intro h
    exact ⟨t, read_eq_ok_some_iff.mpr ⟨ht, h⟩, rfl⟩

theorem depth_pos (tree : Expr α) : 0 < tree.depth := by
  cases tree <;> simp only [depth] <;> omega

theorem exists_spelling (h : tree.Spellable value) :
    ∃ s, Spelling value tree (2 * (tree.depth - 1)) s := by
  induction tree with
  | const v =>
    obtain ⟨digits, hd, rfl⟩ := h
    exact ⟨digits, .operand hd⟩
  | var name => exact ⟨name.toList, .operand h⟩
  | operation op left right hl hr =>
    obtain ⟨l, hl⟩ := hl h.1
    obtain ⟨r, hr⟩ := hr h.2
    have hlevels : max (2 * (left.depth - 1)) (2 * (right.depth - 1)) + 2 =
        2 * ((operation op left right).depth - 1) := by
      have := left.depth_pos
      have := right.depth_pos
      simp only [depth]
      omega
    rw [← hlevels]
    exact ⟨_, .operation op hl hr⟩

/-- **Every tree is read from its spellings.** A tree whose constants are values of digit runs and
whose variables are identifiers has a spelling, of two levels for each of its own below the root.
Whatever pairs of parentheses and blanks a spelling has besides those it needs, it is read to its
tree, if and only if its levels are 256 at most; and so is what is left of it without the outermost
pair of parentheses, which is one level less. -/
theorem tree_read_from_spelling (value : String → α) (tree : Expr α) :
    (tree.Spellable value → ∃ s, Spelling value tree (2 * (tree.depth - 1)) s) ∧
    ∀ (n : ℕ) (source : String), Spelling value tree n source.toList →
      ((read source).result.map (Option.map (Expr.map value)) = .ok (some tree) ↔ n ≤ 256) ∧
      ∀ bare : String, Unwraps source.toList bare.toList →
        ((read bare).result.map (Option.map (Expr.map value)) = .ok (some tree) ↔ n ≤ 257) := by
  refine ⟨exists_spelling, fun n source h => ?_⟩
  obtain ⟨t, ht, rfl, rfl⟩ := h.exists_plan
  refine ⟨read_eq_ok_iff_levels ht, fun bare hu => ?_⟩
  rw [h.plan_of_unwraps hu] at ht ⊢
  rw [read_eq_ok_iff_levels ht, Plan.levels, Nat.add_le_add_iff_right]
  rfl

/-- The value of a digit run as a floating point number. -/
def floatOf (digits : String) : Float := Decimal.ofDigits digits.toList

/-- The sum of a number and a variable. -/
def sampleSum : Expr Float := .operation .add (.const (floatOf "2")) (.var "x_1")

/-- A sum is read from a text with blanks and pairs of parentheses that it does not need, and from
what is left without the outermost pair. -/
theorem sum_read_from_spelling :
    Spelling floatOf sampleSum 4 " ( (( 2 )+\tx_1 )) ".toList ∧
    (read " ( (( 2 )+\tx_1 )) ").result.map (Option.map (Expr.map floatOf)) = .ok (some sampleSum) ∧
    Unwraps " ( (( 2 )+\tx_1 )) ".toList "  (( 2 )+\tx_1 ) ".toList ∧
    (read "  (( 2 )+\tx_1 ) ").result.map (Option.map (Expr.map floatOf)) =
      .ok (some sampleSum) := by
  have hspace : Blank [' '] := by simp [Blank]; decide
  have htab : Blank ['\t'] := by simp [Blank]; decide
  have htwo : Spelling floatOf ((const "2").map floatOf) 0 ['2'] :=
    .operand (.number (by decide) (by simp))
  have hx : Spelling floatOf ((var "x_1").map floatOf) 0 ['x', '_', '1'] :=
    .operand (.name (by decide) (by simp))
  have hsum : Spelling floatOf sampleSum 3 "(( 2 )+\tx_1 )".toList :=
    .operation .add (.group (.pad hspace htwo hspace)) (.pad htab hx hspace)
  have hsource : Spelling floatOf sampleSum 4 " ( (( 2 )+\tx_1 )) ".toList :=
    .pad hspace (.group (.pad hspace hsum blank_nil)) hspace
  have hbare : Unwraps " ( (( 2 )+\tx_1 )) ".toList "  (( 2 )+\tx_1 ) ".toList :=
    ⟨[' '], " (( 2 )+\tx_1 )".toList, [' '], hspace, hspace, by decide, by decide⟩
  obtain ⟨hread, hunwrapped⟩ := (tree_read_from_spelling floatOf sampleSum).2 4 _ hsource
  exact ⟨hsource, hread.mpr (by decide), hbare, (hunwrapped _ hbare).mpr (by decide)⟩

end Worksheet.Expr
