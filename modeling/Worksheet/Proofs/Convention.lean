import Mathlib.Algebra.Field.Rat
import Mathlib.Tactic.Ring
import Worksheet.Expr.Evaluation
import Worksheet.Proofs.Grammar

/-! # The conventional reading

By convention parentheses are read first, then `*` and `/` from left to right, then `+` and `-` from
left to right. `Conventional` tells this reading of a text; there is one tree at most
(`Conventional.unique`). `ConventionalValue` tells the value of a text along the same rules, without
a tree. The tree that is read is often another one: `10+3-2` is split at its `+`. Over the rational
numbers, where the quotient by zero is undefined and so is all that is computed from it, it has the
value that the text has by convention (`value_eq_conventional`).

The step from one tree to the other is `Agree.regroup`: an operand may be put in front of a whole
chain instead of its first member (`Conventional.graft`). -/

namespace Worksheet

namespace Operator

/-- How tightly an operator binds. -/
def precedence : Operator → ℕ
  | add | subtract => 0
  | multiply | divide => 1

/-- The operators on rational numbers. The quotient by zero is undefined. -/
def onRationals : Operator → ℚ → ℚ → Option ℚ
  | add, x, y => some (x + y)
  | subtract, x, y => some (x - y)
  | multiply, x, y => some (x * y)
  | divide, x, y => if y = 0 then none else some (x / y)

/-- The operators on rational numbers that may be undefined. -/
def exact (op : Operator) (x y : Option ℚ) : Option ℚ :=
  x.bind fun x => y.bind fun y => op.onRationals x y

/-- An operator is split at only when there is none that binds less. -/
theorem precedence_le {op a : Operator} (h : a ∉ splitOrder.takeWhile (· ≠ op)) :
    op.precedence ≤ a.precedence := by
  revert h
  rcases op <;> rcases a <;> decide

/-- A sum may be taken apart at any `+`, and a product at any `*`. -/
def Grafts (op : Operator) : Prop := op = add ∨ op = multiply

theorem precedence_lt {op a : Operator} (h : a ∉ splitOrder.takeWhile (· ≠ op)) (hne : a ≠ op)
    (hop : ¬ op.Grafts) : op.precedence + 1 ≤ a.precedence := by
  revert h hne hop
  unfold Grafts
  rcases op <;> rcases a <;> decide

/-- **The law of regrouping**, for undefined values too. -/
theorem exact_regroup {op a : Operator} (hop : op.Grafts) (ha : a.precedence = op.precedence)
    (x y z : Option ℚ) : a.exact (op.exact x y) z = op.exact x (a.exact y z) := by
  rcases x with _ | x
  · rfl
  rcases y with _ | y
  · rfl
  rcases z with _ | z
  · rcases hop with rfl | rfl <;> rfl
  rcases hop with rfl | rfl
  · rcases a with _ | _ | _ | _
    · simp [exact, onRationals, add_assoc]
    · simp [exact, onRationals, add_sub_assoc]
    · exact absurd ha (by decide)
    · exact absurd ha (by decide)
  · rcases a with _ | _ | _ | _
    · exact absurd ha (by decide)
    · exact absurd ha (by decide)
    · simp [exact, onRationals, mul_assoc]
    · by_cases hz : z = 0
      · simp [exact, onRationals, hz]
      · simp [exact, onRationals, hz, mul_div_assoc]

end Operator

namespace Expr

open Worksheet.Text

/-! ### Trees of the same value -/

/-- The trees have the same value, defined or not, for all rational values of constants and
variables. -/
def Agree (e e' : Expr String) : Prop :=
  ∀ (literal : String → Option ℚ) (values : Table (Option ℚ)),
    (e.map literal).evaluate Operator.exact values = (e'.map literal).evaluate Operator.exact values

namespace Agree

variable {e e' e'' l l' r r' : Expr String} {op a : Operator}

theorem refl (e : Expr String) : Agree e e := fun _ _ => rfl

theorem symm (h : Agree e e') : Agree e' e := fun literal values => (h literal values).symm

theorem trans (h : Agree e e') (h' : Agree e' e'') : Agree e e'' := fun literal values =>
  (h literal values).trans (h' literal values)

theorem operation (op : Operator) (hl : Agree l l') (hr : Agree r r') :
    Agree (.operation op l r) (.operation op l' r') := by
  intro literal values
  simp only [Expr.map, evaluate, hl literal values, hr literal values]

/-- **Chains may be regrouped** behind a `+` or a `*`. -/
theorem regroup (hop : op.Grafts) (ha : a.precedence = op.precedence) :
    Agree (.operation a (.operation op l e) r) (.operation op l (.operation a e r)) := by
  intro literal values
  simp only [Expr.map, evaluate]
  rcases (l.map literal).evaluate Operator.exact values with _ | x
  · rfl
  rcases (e.map literal).evaluate Operator.exact values with _ | y
  · rfl
  rcases (r.map literal).evaluate Operator.exact values with _ | z
  · rfl
  exact congrArg Except.ok (Operator.exact_regroup hop ha x y z)

end Agree

/-! ### The reading by convention -/

/-- The reading of a text by convention: no operator outside its parentheses binds less tightly than
`n`, the left side of an operation may hold operators that bind as tightly as its own, and the right
side none of them. -/
inductive Conventional : ℕ → List Char → Expr String → Prop
  | operand {n : ℕ} {l s r : List Char} {e : Expr String} (hl : Blank l) (h : Operand s e)
      (hr : Blank r) : Conventional n (l ++ s ++ r) e
  | group {n : ℕ} {l s r : List Char} {e : Expr String} (hl : Blank l) (h : Conventional 0 s e)
      (hr : Blank r) : Conventional n (l ++ '(' :: (s ++ [')']) ++ r) e
  | operation {n : ℕ} (op : Operator) {left right : List Char} {l r : Expr String}
      (hn : n ≤ op.precedence)
      (hl : Conventional op.precedence left l) (hr : Conventional (op.precedence + 1) right r) :
    Conventional n (left ++ op.symbol :: right) (.operation op l r)

variable {n m : ℕ} {s l r p q left right : List Char} {op : Operator} {e e' tl tr : Expr String}

namespace Conventional

theorem grammar (h : Conventional n s e) : Grammar s := by
  induction h with
  | operand hl h hr => exact .operand hl h hr
  | group hl _ hr ih => exact .group hl ih hr
  | operation op _ _ _ hl hr => exact .operation op hl hr

theorem balanced (h : Conventional n s e) : Balanced s := h.grammar.balanced

theorem pad (h : Conventional n s e) (hp : Blank p) (hq : Blank q) :
    Conventional n (p ++ s ++ q) e := by
  induction h generalizing p q with
  | operand hl h hr =>
    rw [pad_pad]
    exact operand (Blank.append hp hl) h (Blank.append hr hq)
  | group hl h hr =>
    rw [pad_pad]
    exact group (Blank.append hp hl) h (Blank.append hr hq)
  | operation op hn _ _ hl hr =>
    rw [pad_operation]
    exact operation op hn (hl hp blank_nil) (hr blank_nil hq)

theorem of_trim (h : Conventional n (trim s) e) : Conventional n s e := by
  obtain ⟨p, q, hs, hp, hq⟩ := exists_eq_append_trim s
  rw [hs]
  exact h.pad hp hq

theorem le_precedence (h : Conventional n s e) (hc : Cuts s l op.symbol r) : n ≤ op.precedence := by
  induction h generalizing l r with
  | operand hl h hr => exact absurd hc (not_cuts_operand hl h hr)
  | group hl h hr => exact absurd hc (not_cuts_group hl h.balanced hr)
  | operation a hn hl hr ihl ihr =>
    rcases hc.of_operation hl.balanced hr.balanced with ⟨-, ha, -⟩ | ⟨m, hm, -⟩ | ⟨m, hm, -⟩
    · rw [symbol_injective ha]
      exact hn
    · exact hn.trans (ihl hm)
    · have := ihr hm
      omega

/-- A reading is one of any level that the operators outside all parentheses allow. -/
theorem raise (h : Conventional n s e)
    (hm : ∀ (op : Operator) l r, Cuts s l op.symbol r → m ≤ op.precedence) :
    Conventional m s e := by
  rcases h with ⟨hl, h, hr⟩ | ⟨hl, h, hr⟩ | ⟨op, -, hl, hr⟩
  · exact operand hl h hr
  · exact group hl h hr
  · exact operation op (hm op _ _ ⟨rfl, hl.balanced, hr.balanced⟩) hl hr

/-- **A text has one reading by convention.** -/
theorem unique (h : Conventional n s e) (h' : Conventional m s e') : e = e' := by
  induction h generalizing m e' with
  | @operand _ x s y _ hx h hy =>
    generalize heq : x ++ s ++ y = z at h'
    have ht : trim z = s := by rw [← heq, h.trim_eq hx hy]
    rcases h' with ⟨hx', h', hy'⟩ | ⟨hx', -, hy'⟩ | ⟨op, -, hl', hr'⟩
    · rw [h'.trim_eq hx' hy'] at ht
      subst ht
      have := (readLeaf_eq_ok_iff.mpr h).symm.trans (readLeaf_eq_ok_iff.mpr h')
      exact Except.ok.inj this
    · rw [trim_group hx' hy'] at ht
      exact absurd (ht ▸ List.mem_cons_self) h.open_not_mem
    · exact absurd ⟨heq, hl'.balanced, hr'.balanced⟩ (not_cuts_operand hx h hy)
  | @group _ x s y _ hx h hy ih =>
    generalize heq : x ++ '(' :: (s ++ [')']) ++ y = z at h'
    have ht : trim z = '(' :: (s ++ [')']) := by rw [← heq, trim_group hx hy]
    rcases h' with ⟨hx', h', hy'⟩ | ⟨hx', h', hy'⟩ | ⟨op, -, hl', hr'⟩
    · rw [h'.trim_eq hx' hy'] at ht
      exact absurd (ht ▸ List.mem_cons_self) h'.open_not_mem
    · rw [trim_group hx' hy'] at ht
      have hs := List.append_cancel_right (List.cons.inj ht).2
      exact ih (hs ▸ h')
    · exact absurd ⟨heq, hl'.balanced, hr'.balanced⟩ (not_cuts_group hx h.balanced hy)
  | @operation _ op left right _ _ hn hl hr ihl ihr =>
    have hc : Cuts (left ++ op.symbol :: right) left op.symbol right :=
      ⟨rfl, hl.balanced, hr.balanced⟩
    generalize heq : left ++ op.symbol :: right = z at h' hc
    rcases h' with ⟨hx', h', hy'⟩ | ⟨hx', h', hy'⟩ | ⟨op', -, hl', hr'⟩
    · exact absurd hc (not_cuts_operand hx' h' hy')
    · exact absurd hc (not_cuts_group hx' h'.balanced hy')
    · rcases hc.of_operation hl'.balanced hr'.balanced
        with ⟨rfl, ho, rfl⟩ | ⟨m, hm, rfl⟩ | ⟨m, hm, rfl⟩
      · rw [ihl hl', ihr hr', symbol_injective ho]
      -- the operator of the one reading stands in a side of the other, in which it binds too
      -- loosely
      · have hop := hl'.le_precedence hm
        have hop' := hr.le_precedence ⟨rfl, hm.right, hr'.balanced⟩
        omega
      · have hop := hr'.le_precedence hm
        have hop' := hl.le_precedence ⟨rfl, hl'.balanced, hm.left⟩
        omega

example : Conventional 0 "10+3-2".toList
    (.operation .subtract (.operation .add (.const "10") (.const "3")) (.const "2")) := by
  have number (n : ℕ) (s : List Char) (hn : s ≠ []) (h : s.all Char.isDigit = true) :
      Conventional n s (.const (String.ofList s)) := by
    simpa using Conventional.operand blank_nil (.number hn (List.all_eq_true.mp h)) blank_nil
  have hsum : Conventional 0 "10+3".toList (.operation .add (.const "10") (.const "3")) :=
    .operation .add le_rfl (number 0 ['1', '0'] (by simp) rfl) (number 1 ['3'] (by simp) rfl)
  exact .operation .subtract le_rfl hsum (number 1 ['2'] (by simp) rfl)

/-- **A chain behind a `+` or a `*` is read with what stands in front**, and has the value of the
whole chain with the front. -/
theorem graft (hop : op.Grafts) (hl : Conventional op.precedence left tl)
    (hr : Conventional n right tr)
    (hn : n = op.precedence) :
    ∃ e, Conventional op.precedence (left ++ op.symbol :: right) e ∧
      Agree (.operation op tl tr) e := by
  induction hr with
  | operand hx h hy => exact ⟨_, operation op le_rfl hl (operand hx h hy), .refl _⟩
  | group hx h hy => exact ⟨_, operation op le_rfl hl (group hx h hy), .refl _⟩
  | @operation n a left' right' tl' tr' ha hl' hr' ih _ =>
    by_cases heq : a.precedence = op.precedence
    · obtain ⟨e, he, hagree⟩ := ih heq
      refine ⟨.operation a e tr', ?_, ?_⟩
      · have hassoc : left ++ op.symbol :: (left' ++ a.symbol :: right') =
            (left ++ op.symbol :: left') ++ a.symbol :: right' := by simp
        rw [hassoc]
        exact operation a heq.ge (heq ▸ he) hr'
      · exact (Agree.regroup hop heq).symm.trans (hagree.operation a (.refl tr'))
    · have hright : Conventional (op.precedence + 1) (left' ++ a.symbol :: right')
          (.operation a tl' tr') :=
        operation a (by omega) hl' hr'
      exact ⟨_, operation op le_rfl hl hright, .refl _⟩

/-- The readings of the sides of a split give one of the whole, with the value of the operation. -/
theorem join (hl : Conventional 0 left tl) (hr : Conventional 0 right tr)
    (hbefore : ∀ a ∈ Operator.splitOrder.takeWhile (· ≠ op), ∀ l r,
      ¬ Cuts (left ++ op.symbol :: right) l (Operator.symbol a) r)
    (hlast : ∀ l r, ¬ Cuts right l op.symbol r) :
    ∃ e, Conventional 0 (left ++ op.symbol :: right) e ∧ Agree (.operation op tl tr) e := by
  have hopen : ∀ (a : Operator) l r, Cuts left l a.symbol r ∨ Cuts right l a.symbol r →
      a ∉ Operator.splitOrder.takeWhile (· ≠ op) := by
    rintro a l r (hc | hc) ha
    · refine hbefore a ha l (r ++ op.symbol :: right) ⟨by simp [hc.eq], hc.left, ?_⟩
      exact hc.right.append ((balanced_cons_iff (depthStep_symbol op)).mpr hr.balanced)
    · refine hbefore a ha (left ++ op.symbol :: l) r ⟨by simp [hc.eq], ?_, hc.right⟩
      exact hl.balanced.append ((balanced_cons_iff (depthStep_symbol op)).mpr hc.left)
  have hleft : Conventional op.precedence left tl :=
    hl.raise fun a l r hc => Operator.precedence_le (hopen a l r (Or.inl hc))
  by_cases hop : op.Grafts
  · have hright : Conventional op.precedence right tr :=
      hr.raise fun a l r hc => Operator.precedence_le (hopen a l r (Or.inr hc))
    obtain ⟨e, he, hagree⟩ := graft hop hleft hright rfl
    exact ⟨e, he.raise fun _ _ _ _ => Nat.zero_le _, hagree⟩
  · have hright : Conventional (op.precedence + 1) right tr := by
      refine hr.raise fun a l r hc => ?_
      have hne : a ≠ op := by
        rintro rfl
        exact hlast l r hc
      exact Operator.precedence_lt (hopen a l r (Or.inr hc)) hne hop
    exact ⟨_, operation op (Nat.zero_le _) hleft hright, .refl _⟩

end Conventional

/-! ### The value by convention -/

/-- **The value of a text by convention**, for given values of digit runs and variables. Only what
is undefined makes a value undefined; a text with a variable that the table does not have has no
value at all. -/
inductive ConventionalValue (literal : String → Option ℚ) (values : Table (Option ℚ)) :
    ℕ → List Char → Option ℚ → Prop
  | number {n : ℕ} {l s r : List Char} {digits : String} (hl : Blank l)
      (h : Operand s (.const digits))
      (hr : Blank r) : ConventionalValue literal values n (l ++ s ++ r) (literal digits)
  | named {n : ℕ} {l s r : List Char} {name : String} {x : Option ℚ} (hl : Blank l)
      (h : Operand s (.var name)) (hr : Blank r) (hx : values.find? name = some x) :
      ConventionalValue literal values n (l ++ s ++ r) x
  | group {n : ℕ} {l s r : List Char} {x : Option ℚ} (hl : Blank l)
      (h : ConventionalValue literal values 0 s x) (hr : Blank r) :
      ConventionalValue literal values n (l ++ '(' :: (s ++ [')']) ++ r) x
  | operation {n : ℕ} (op : Operator) {left right : List Char} {x y : Option ℚ}
      (hn : n ≤ op.precedence)
      (hl : ConventionalValue literal values op.precedence left x)
      (hr : ConventionalValue literal values (op.precedence + 1) right y) :
      ConventionalValue literal values n (left ++ op.symbol :: right) (op.exact x y)

variable {literal : String → Option ℚ} {values : Table (Option ℚ)} {v : Option ℚ}

theorem Conventional.conventionalValue (h : Conventional n s e)
    (hv : (e.map literal).evaluate Operator.exact values = .ok v) :
    ConventionalValue literal values n s v := by
  induction h generalizing v with
  | operand hl h hr =>
    cases h with
    | number hn hd =>
      cases hv
      exact .number hl (.number hn hd) hr
    | @name first rest hf hrest =>
      rcases hfind : values.find? (String.ofList (first :: rest)) with _ | x
      · simp only [Expr.map, evaluate, hfind, reduceCtorEq] at hv
      · simp only [Expr.map, evaluate, hfind, Except.ok.injEq] at hv
        exact .named hl (.name hf hrest) hr (hv ▸ hfind)
  | group hl _ hr ih => exact .group hl (ih hv) hr
  | @operation n op left right l r hn _ _ ihl ihr =>
    simp only [Expr.map, evaluate] at hv
    rcases hleft : (l.map literal).evaluate Operator.exact values with err | x
    · simp [hleft, bind, Except.bind] at hv
    rcases hright : (r.map literal).evaluate Operator.exact values with err | y
    · simp [hleft, hright, bind, Except.bind] at hv
    · simp only [hleft, hright, bind, Except.bind, pure, Except.pure, Except.ok.injEq] at hv
      exact hv ▸ .operation op hn (ihl hleft) (ihr hright)

theorem ConventionalValue.exists_conventional (h : ConventionalValue literal values n s v) :
    ∃ e, Conventional n s e ∧ (e.map literal).evaluate Operator.exact values = .ok v := by
  induction h with
  | number hl h hr => exact ⟨_, .operand hl h hr, rfl⟩
  | named hl h hr hx => exact ⟨_, .operand hl h hr, by simp [Expr.map, evaluate, hx]⟩
  | group hl _ hr ih =>
    obtain ⟨e, he, hv⟩ := ih
    exact ⟨e, .group hl he hr, hv⟩
  | operation op hn _ _ ihl ihr =>
    obtain ⟨l, hl, hx⟩ := ihl
    obtain ⟨r, hr, hy⟩ := ihr
    refine ⟨_, .operation op hn hl hr, ?_⟩
    simp only [Expr.map, evaluate, hx, hy]
    rfl

/-- **The value by convention** is that of the tree by convention. -/
theorem Conventional.evaluate_eq_ok_iff (h : Conventional n s e) :
    (e.map literal).evaluate Operator.exact values = .ok v ↔
      ConventionalValue literal values n s v := by
  refine ⟨h.conventionalValue, fun hv => ?_⟩
  obtain ⟨e', he', hvalue⟩ := hv.exists_conventional
  rwa [h.unique he']

/-! ### The tree that is read -/

theorem exists_conventional (hs : Balanced s) (h : (plan s).tree? = some e) :
    ∃ e', Conventional 0 s e' ∧ Agree e e' := by
  fun_induction plan s generalizing e with
  | case1 => exact absurd h (by simp [Plan.tree?])
  | case2 s _ inner hi ih =>
    obtain ⟨hw, hb⟩ := inside?_eq_some_iff.mp hi
    obtain ⟨e', he', hagree⟩ := ih hb h
    refine ⟨e', .of_trim ?_, hagree⟩
    rw [hw]
    simpa using Conventional.group blank_nil he' blank_nil
  | case3 s _ _ op left right hsplit ihl ihr =>
    obtain ⟨tl, tr, hl, hr, rfl⟩ := Plan.tree?_split.mp h
    obtain ⟨hcut, hbefore⟩ := split?_eq_some_iff.mp hsplit
    obtain ⟨hc, hlast⟩ := cuts_of_cutAtLast? (balanced_trim_iff.mpr hs) (depthStep_symbol op) hcut
    obtain ⟨cl, hcl, hal⟩ := ihl hc.left hl
    obtain ⟨cr, hcr, har⟩ := ihr hc.right hr
    have hnone : ∀ a ∈ Operator.splitOrder.takeWhile (· ≠ op), ∀ l r,
        ¬ Cuts (left ++ op.symbol :: right) l (Operator.symbol a) r := by
      intro a ha l r
      rw [← hc.eq]
      exact not_cuts_of_cutAtLast? (hbefore a ha)
    obtain ⟨e', he', hagree⟩ := hcl.join hcr hnone hlast
    exact ⟨e', .of_trim (hc.eq ▸ he'), (hal.operation op har).trans hagree⟩
  | case4 s _ _ _ =>
    refine ⟨e, .of_trim ?_, .refl e⟩
    simpa using Conventional.operand blank_nil (tree?_leaf.mp h) blank_nil

/-- **The grouping of the tree that is read does no harm**. The source has one reading by
convention, and over the rational numbers the two trees have the same value, or both have none. It
is the value that the source has by convention. -/
theorem value_eq_conventional (source : String) {tree : Expr String}
    (h : (read source).result = .ok (some tree)) :
    ∃ e, Conventional 0 source.toList e ∧ (∀ e', Conventional 0 source.toList e' → e' = e) ∧
      ∀ (literal : String → Option ℚ) (values : Table (Option ℚ)),
        (tree.map literal).evaluate Operator.exact values =
          (e.map literal).evaluate Operator.exact values ∧
        ∀ v, (tree.map literal).evaluate Operator.exact values = .ok v ↔
          ConventionalValue literal values 0 source.toList v := by
  obtain ⟨ht, -⟩ := read_eq_ok_some_iff.mp h
  obtain ⟨e, he, hagree⟩ := exists_conventional (Grammar.of_tree? ht).balanced ht
  refine ⟨e, he, fun e' he' => he'.unique he,
    fun literal values => ⟨hagree literal values, fun v => ?_⟩⟩
  rw [hagree literal values]
  exact he.evaluate_eq_ok_iff

/-- The tree that is read from a chain with all four operators. -/
def mixedChain : Expr String :=
  .operation .add (.const "10") (.operation .subtract (.const "3")
    (.operation .multiply (.const "8") (.operation .divide (.const "4") (.const "2"))))

/-- It has the value of (10 + 3) - ((8 * 4) / 2). -/
theorem value_of_mixed_chains :
    (read "10+3-8*4/2").result = .ok (some mixedChain) ∧
    (∃ e, Conventional 0 "10+3-8*4/2".toList e ∧
      (∀ e', Conventional 0 "10+3-8*4/2".toList e' → e' = e) ∧
      ∀ (literal : String → Option ℚ) (values : Table (Option ℚ)),
        (mixedChain.map literal).evaluate Operator.exact values =
          (e.map literal).evaluate Operator.exact values) ∧
    ConventionalValue (fun digits => some (digitsValue digits.toList)) .empty 0 "10+3-8*4/2".toList
      (some (-3)) := by
  have hread : (read "10+3-8*4/2").result = .ok (some mixedChain) := rfl
  obtain ⟨e, he, hunique, hvalue⟩ := value_eq_conventional "10+3-8*4/2" hread
  refine ⟨hread, ⟨e, he, hunique, fun literal values => (hvalue literal values).1⟩, ?_⟩
  exact ((hvalue _ _).2 _).mp (by decide +kernel)

end Expr

end Worksheet
