import Mathlib.Data.List.Basic
import Worksheet.Expr.Evaluation

/-! # Values of variables

What an expression is evaluated to, whatever its operators mean, is told by the values of its
variables. Evaluation goes from left to right and stops at the first variable without a value
(`evaluate_eq_error_iff`); if all variables have one there is a value (`exists_evaluate_iff`),
namely the one under any assignment that agrees with the table (`evaluate_eq_value`). Giving a
variable a value is the same as writing the value in its places (`evaluate_substitute`). -/

namespace Worksheet.Expr

variable {α : Type} {apply : Operator → α → α → α} {values values' : Table α}
    {e left right : Expr α} {x : String}

/-- The value of an expression all of whose variables are assigned values. -/
def value (apply : Operator → α → α → α) (assigned : String → α) : Expr α → α
  | const v => v
  | var name => assigned name
  | operation op left right => apply op (left.value apply assigned) (right.value apply assigned)

/-- The expression with a constant in the places of a variable. -/
def substitute (x : String) (v : α) : Expr α → Expr α
  | const w => const w
  | var name => if name = x then const v else var name
  | operation op left right => operation op (left.substitute x v) (right.substitute x v)

/-- The variable stands in the row of names, has no value, and all names before it have one. -/
def FirstUnbound (values : Table α) (names : List String) (x : String) : Prop :=
  ∃ before after, names = before ++ x :: after ∧ (∀ y ∈ before, ∃ v, values.find? y = some v) ∧
    values.find? x = none

/-! ### Variables without a value -/

theorem firstUnbound_iff {names : List String} :
    FirstUnbound values names x ↔ names.find? (fun y => (values.find? y).isNone) = some x := by
  rw [List.find?_eq_some_iff_append]
  simp only [FirstUnbound, Option.isNone_iff_eq_none, Bool.not_eq_true', Option.isNone_eq_false_iff,
    Option.isSome_iff_exists]
  constructor
  · rintro ⟨before, after, hnames, hbefore, hx⟩
    exact ⟨hx, before, after, hnames, hbefore⟩
  · rintro ⟨hx, before, after, hnames, hbefore⟩
    exact ⟨before, after, hnames, hbefore, hx⟩

theorem exists_firstUnbound_iff {names : List String} :
    (∃ x, FirstUnbound values names x) ↔ ∃ x ∈ names, values.find? x = none := by
  simp only [firstUnbound_iff, ← Option.isSome_iff_exists, List.find?_isSome,
    Option.isNone_iff_eq_none]

theorem firstUnbound_append {names names' : List String} : FirstUnbound values (names ++ names') x ↔
    FirstUnbound values names x ∨ (∀ y, ¬ FirstUnbound values names y) ∧
      FirstUnbound values names' x := by
  simp only [firstUnbound_iff, List.find?_append, Option.or_eq_some_iff,
    ← Option.eq_none_iff_forall_ne_some]

/-- **Evaluation fails at the first variable without a value**, from left to right. -/
theorem evaluate_eq_error_iff {err : Error} : e.evaluate apply values = .error err ↔
    ∃ x, FirstUnbound values e.vars x ∧ err = .unboundVariable x := by
  induction e generalizing err with
  | const v => simp [evaluate, vars, firstUnbound_iff]
  | var name =>
    rcases h : values.find? name with _ | v <;> simp [evaluate, vars, firstUnbound_iff, h, eq_comm]
  | operation op left right hl hr =>
    simp only [vars, firstUnbound_append, evaluate]
    rcases hleft : left.evaluate apply values with e' | v
    · obtain ⟨y, hy, rfl⟩ := hl.mp hleft
      simp only [bind, Except.bind, Except.error.injEq]
      constructor
      · rintro rfl
        exact ⟨y, Or.inl hy, rfl⟩
      · rintro ⟨x, hx | ⟨hx, -⟩, rfl⟩
        · rw [firstUnbound_iff] at hx hy
          rw [Option.some.inj (hy.symm.trans hx)]
        · exact absurd hy (hx y)
    · have hnone : ∀ y, ¬ FirstUnbound values left.vars y := fun y hy =>
        absurd (hleft.symm.trans (hl.mpr ⟨y, hy, rfl⟩)) (by simp)
      simp only [hnone, not_false_iff, forall_true_iff, true_and, false_or, ← hr]
      rcases right.evaluate apply values with e' | w <;> simp [bind, Except.bind, pure, Except.pure]

theorem exists_evaluate_error_iff :
    (∃ err, e.evaluate apply values = .error err) ↔ ∃ x ∈ e.vars, values.find? x = none := by
  rw [← exists_firstUnbound_iff]
  simp only [evaluate_eq_error_iff]
  constructor
  · rintro ⟨_, x, hx, -⟩
    exact ⟨x, hx⟩
  · rintro ⟨x, hx⟩
    exact ⟨_, x, hx, rfl⟩

/-- **An expression has a value** exactly when all its variables have one. -/
theorem exists_evaluate_iff :
    (∃ v, e.evaluate apply values = .ok v) ↔ ∀ x ∈ e.vars, ∃ v, values.find? x = some v := by
  have hfails : (∃ v, e.evaluate apply values = .ok v) ↔
      ¬ ∃ err, e.evaluate apply values = .error err := by
    rcases e.evaluate apply values with err | v <;> simp
  rw [hfails, exists_evaluate_error_iff]
  simp only [not_exists, not_and, ← ne_eq, Option.ne_none_iff_exists']

/-! ### What the value depends on -/

/-- The value of an expression is the one under any assignment that agrees with the table on its
variables. -/
theorem evaluate_eq_value {assigned : String → α}
    (h : ∀ x ∈ e.vars, values.find? x = some (assigned x)) :
    e.evaluate apply values = .ok (e.value apply assigned) := by
  induction e with
  | const v => rfl
  | var name => simp [evaluate, value, h name (List.mem_singleton.mpr rfl)]
  | operation op left right hl hr =>
    obtain ⟨hleft, hright⟩ := List.forall_mem_append.mp h
    simp only [evaluate, hl hleft, hr hright, value]
    rfl

theorem value_congr {assigned assigned' : String → α} (h : ∀ x ∈ e.vars, assigned x = assigned' x) :
    e.value apply assigned = e.value apply assigned' := by
  induction e with
  | const v => rfl
  | var name => exact h name (List.mem_singleton.mpr rfl)
  | operation op left right hl hr =>
    obtain ⟨hleft, hright⟩ := List.forall_mem_append.mp h
    rw [value, value, hl hleft, hr hright]

/-- Only the values of its own variables matter to an expression. -/
theorem evaluate_congr (h : ∀ x ∈ e.vars, values.find? x = values'.find? x) :
    e.evaluate apply values = e.evaluate apply values' := by
  induction e with
  | const v => rfl
  | var name => rw [evaluate, evaluate, h name (List.mem_singleton.mpr rfl)]
  | operation op left right hl hr =>
    obtain ⟨hleft, hright⟩ := List.forall_mem_append.mp h
    rw [evaluate, evaluate, hl hleft, hr hright]

/-- **A value given to a variable may be written in its places.** -/
theorem evaluate_substitute (x : String) (v : α) (e : Expr α) :
    (e.substitute x v).evaluate apply values = e.evaluate apply (values.insert x v) := by
  induction e with
  | const w => rfl
  | var name =>
    rw [substitute, evaluate, Table.find?_insert]
    split <;> rfl
  | operation op left right hl hr => rw [substitute, evaluate, evaluate, hl, hr]

/-- **Evaluation and the values of variables**, for any meaning of the operators. An expression has
no value exactly if one of its variables has none, and the error is that of the first such variable
in the order of the leaves; two tables that agree on the variables of an expression give the same
outcome; and an expression with a constant in the places of a variable has the outcome of the
expression with this value given to the variable. -/
theorem evaluate_by_values (apply : Operator → α → α → α) (e : Expr α) (values : Table α) :
    ((∃ err, e.evaluate apply values = .error err) ↔ ∃ x ∈ e.vars, values.find? x = none) ∧
    (∀ err, e.evaluate apply values = .error err ↔ ∃ x, FirstUnbound values e.vars x ∧
      err = .unboundVariable x) ∧
    (∀ values' : Table α, (∀ x ∈ e.vars, values.find? x = values'.find? x) →
      e.evaluate apply values = e.evaluate apply values') ∧
    ∀ x v, (e.substitute x v).evaluate apply values = e.evaluate apply (values.insert x v) := by
  exact ⟨exists_evaluate_error_iff, fun err => evaluate_eq_error_iff, fun values' => evaluate_congr,
    fun x v => evaluate_substitute x v e⟩

end Worksheet.Expr
