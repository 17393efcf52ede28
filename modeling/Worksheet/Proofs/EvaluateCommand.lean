import Mathlib.Data.List.Induction
import Mathlib.Data.List.Pairwise
import Worksheet.Proofs.Calculation
import Worksheet.Proofs.FileCommands

/-! # Evaluating with bindings

The command that evaluates an expression takes arguments `NAME=VALUE`. `Binds` says which name and
which value an argument has, and an argument is accepted if it has them and the name is a variable
of the expression (`Accepts`), and refused with an error otherwise (`Refuses`). The arguments are
taken from left to right, and accepted ones do nothing but enter their values, later ones over
earlier ones (`foldlM_bindArgument`, `exists_given`). What is printed is the value by the four
operations on floating point numbers (`Expr.floatValue`). `evaluation_by_arguments` is the statement
on the whole command. -/

namespace Worksheet

open Text

namespace Expr

/-- **The value of an expression by floating point arithmetic**: a run of digits is the number that
it spells, a variable has the value assigned to it, and each operator is the operation on floating
point numbers that it stands for. -/
def floatValue (assigned : String → Float) : Expr String → Float
  | const digits => Decimal.ofDigits digits.toList
  | var name => assigned name
  | operation .add left right => left.floatValue assigned + right.floatValue assigned
  | operation .subtract left right => left.floatValue assigned - right.floatValue assigned
  | operation .multiply left right => left.floatValue assigned * right.floatValue assigned
  | operation .divide left right => left.floatValue assigned / right.floatValue assigned

theorem value_onFloats (assigned : String → Float) (tree : Expr String) :
    (tree.map fun digits => Decimal.ofDigits digits.toList).value Operator.onFloats assigned =
      tree.floatValue assigned := by
  induction tree with
  | const digits => rfl
  | var name => rfl
  | operation op left right hl hr =>
    rw [map, value, hl, hr]
    cases op <;> rfl

theorem floatValue_congr {assigned assigned' : String → Float} {tree : Expr String}
    (h : ∀ x ∈ tree.vars, assigned x = assigned' x) :
    tree.floatValue assigned = tree.floatValue assigned' := by
  rw [← value_onFloats, ← value_onFloats]
  exact value_congr fun x hx => h x (by rwa [vars_map] at hx)

end Expr

namespace Command

variable {argument name : String} {x y : String} {v w : Float}
    {names arguments before block block' after : List String}
variable {values : Table Float} {c c' : Calculator} {e : Error} {desk : Desk} {expression : String}

/-! ### Arguments -/

/-- **The name and the value of an argument**: they stand before and behind its first `=`, with
white space around either not counting, and the value reads as a number. -/
def Binds (argument name : String) (value : Float) : Prop :=
  ∃ front back, argument.toList = front ++ '=' :: back ∧ '=' ∉ front ∧
    name = String.ofList (trim front) ∧
    Decimal.read? (trim back) = some value

/-- The argument gives a value to one of the names. -/
def Accepts (names : List String) (argument : String) : Prop :=
  ∃ name ∈ names, ∃ value, Binds argument name value

/-- The reason for which an argument is refused: it has no name and value, or the name is none of
those known. -/
inductive Refuses (names : List String) (argument : String) : Error → Prop
  | invalid : (∀ name value, ¬ Binds argument name value) →
      Refuses names argument (.invalidBinding argument)
  | unknown {name : String} {value : Float} : Binds argument name value → name ∉ names →
      Refuses names argument (.expression (.unknownVariable name))

/-- **The value that arguments give to a name**: that of the last one which has the name, and 0 if
there is none. -/
inductive Given (arguments : List String) (name : String) : Float → Prop
  | last {before after : List String} {argument : String} {value : Float} :
      arguments = before ++ argument :: after → Binds argument name value →
        (∀ a ∈ after, ∀ w, ¬ Binds a name w) → Given arguments name value
  | unnamed : (∀ a ∈ arguments, ∀ w, ¬ Binds a name w) → Given arguments name 0

/-- **The line printed for an expression**: `(empty)` if it is blank, and otherwise the value, by
floating point arithmetic, of the tree that is read, with the values that the arguments give to its
variables. -/
inductive Answer (expression : String) (arguments : List String) : String → Prop
  | empty : Blank expression.toList → Answer expression arguments "(empty)"
  | value {tree : Expr String} {assigned : String → Float} :
      (Expr.read expression).result = .ok (some tree) →
      (∀ x ∈ tree.vars, Given arguments x (assigned x)) →
        Answer expression arguments (Decimal.write (tree.floatValue assigned))

/-- **The reason for which the command fails**: that of the expression, or that of the first
argument that is refused. -/
inductive Fails (expression : String) (arguments : List String) : Error → Prop
  | expression {err : Expr.Error} : Calculator.compile expression = .error err →
      Fails expression arguments (.expression err)
  | argument {c : Calculator} {before after : List String} {argument : String} {e : Error} :
      Calculator.compile expression = .ok c → arguments = before ++ argument :: after →
        (∀ b ∈ before, Accepts c.vars b) → Refuses c.vars argument e → Fails expression arguments e

/-- The arguments have different names. -/
def Apart (a b : String) : Prop := ∀ name v w, Binds a name v → ¬ Binds b name w

theorem parseBinding_of_not_mem (h : '=' ∉ argument.toList) :
    parseBinding argument = .error (.invalidBinding argument) := by
  have hrest : argument.toList.dropWhile (· != '=') = [] :=
    List.dropWhile_eq_nil_iff.mpr fun c hc => by
      simpa using fun he : c = '=' => h (he ▸ hc)
  rw [parseBinding, hrest]

theorem parseBinding_of_split {front back : List Char} (h : argument.toList = front ++ '=' :: back)
    (hf : '=' ∉ front) :
    parseBinding argument = (Decimal.read? (trim back)).elim (.error (.invalidBinding argument))
      fun value => .ok (String.ofList (trim front), value) := by
  have hfront : ∀ c ∈ front, (c != '=') = true := fun c hc => by
    simpa using fun he : c = '=' => hf (he ▸ hc)
  have hname : argument.toList.takeWhile (· != '=') = front := by
    rw [h, List.takeWhile_append_of_pos hfront, List.takeWhile_cons_of_neg (by decide),
      List.append_nil]
  have hvalue : argument.toList.dropWhile (· != '=') = '=' :: back := by
    rw [h, List.dropWhile_append_of_pos hfront, List.dropWhile_cons_of_neg (by decide)]
  rw [parseBinding, hname, hvalue]
  rcases hread : Decimal.read? (trim back) with _ | value <;> simp [hread]

/-- **An argument is read as the name and the value that it has.** -/
theorem parseBinding_eq_ok_iff : parseBinding argument = .ok (name, v) ↔ Binds argument name v := by
  constructor
  · intro h
    by_cases hmem : '=' ∈ argument.toList
    · obtain ⟨front, back, hsplit, hfront⟩ := List.eq_append_cons_of_mem hmem
      rw [parseBinding_of_split hsplit hfront] at h
      rcases hread : Decimal.read? (trim back) with _ | value
      · simp [hread] at h
      · simp only [hread, Option.elim_some, Except.ok.injEq, Prod.mk.injEq] at h
        exact ⟨front, back, hsplit, hfront, h.1.symm, h.2 ▸ hread⟩
    · exact nomatch (parseBinding_of_not_mem hmem).symm.trans h
  · rintro ⟨front, back, hsplit, hfront, rfl, hread⟩
    rw [parseBinding_of_split hsplit hfront, hread]
    rfl

theorem parseBinding_of_not_binds (h : ∀ name v, ¬ Binds argument name v) :
    parseBinding argument = .error (.invalidBinding argument) := by
  by_cases hmem : '=' ∈ argument.toList
  · obtain ⟨front, back, hsplit, hfront⟩ := List.eq_append_cons_of_mem hmem
    rw [parseBinding_of_split hsplit hfront]
    rcases hread : Decimal.read? (trim back) with _ | value
    · rfl
    · exact absurd ⟨front, back, hsplit, hfront, rfl, hread⟩ (h _ value)
  · exact parseBinding_of_not_mem hmem

theorem Binds.eq (h : Binds argument x v) (h' : Binds argument y w) : x = y ∧ v = w := by
  have hsame := (parseBinding_eq_ok_iff.mpr h).symm.trans (parseBinding_eq_ok_iff.mpr h')
  simpa using hsame

/-! ### Taking arguments -/

/-- The table has values for these names and no others. -/
def Covers (values : Table Float) (names : List String) : Prop :=
  ∀ name, (∃ v, values.find? name = some v) ↔ name ∈ names

/-- The table with the value that an argument gives. -/
def enter (values : Table Float) (argument : String) : Table Float :=
  match parseBinding argument with
  | .ok (name, value) => values.insert name value
  | .error _ => values

theorem enter_of_binds (h : Binds argument name v) (values : Table Float) :
    enter values argument = values.insert name v := by
  rw [enter, parseBinding_eq_ok_iff.mpr h]

theorem bindArgument_of_accepts (hc : Covers c.values names) (h : Accepts names argument) :
    bindArgument c argument = .ok { c with values := enter c.values argument } := by
  obtain ⟨name, hname, value, hbinds⟩ := h
  obtain ⟨old, hold⟩ := (hc name).mpr hname
  rw [enter_of_binds hbinds]
  simp [bindArgument, parseBinding_eq_ok_iff.mpr hbinds, Calculator.assign, hold, Except.mapError,
    bind, Except.bind]

theorem bindArgument_of_refuses (hc : Covers c.values names) (h : Refuses names argument e) :
    bindArgument c argument = .error e := by
  cases h with
  | invalid h => simp [bindArgument, parseBinding_of_not_binds h, bind, Except.bind]
  | @unknown name value hbinds hname =>
    have hnone : c.values.find? name = none := Option.eq_none_iff_forall_ne_some.mpr fun v hv =>
      hname ((hc name).mp ⟨v, hv⟩)
    simp [bindArgument, parseBinding_eq_ok_iff.mpr hbinds, Calculator.assign, hnone,
      Except.mapError, bind, Except.bind]

theorem accepts_or_refuses (names : List String) (argument : String) :
    Accepts names argument ∨ ∃ e, Refuses names argument e := by
  by_cases h : ∃ name value, Binds argument name value
  · obtain ⟨name, value, hbinds⟩ := h
    by_cases hname : name ∈ names
    · exact Or.inl ⟨name, hname, value, hbinds⟩
    · exact Or.inr ⟨_, .unknown hbinds hname⟩
  · exact Or.inr ⟨_, .invalid fun name value hbinds => h ⟨name, value, hbinds⟩⟩

theorem Covers.enter (hc : Covers values names) (h : Accepts names argument) :
    Covers (enter values argument) names := by
  obtain ⟨name, hname, value, hbinds⟩ := h
  intro key
  rw [enter_of_binds hbinds, Table.find?_insert]
  by_cases hkey : key = name
  · simp [hkey, hname]
  · simpa [hkey] using hc key

/-- **Accepted arguments enter their values** from left to right. -/
theorem foldlM_bindArgument (hc : Covers c.values names) (h : ∀ a ∈ arguments, Accepts names a) :
    arguments.foldlM bindArgument c = .ok { c with values := arguments.foldl enter c.values } ∧
      Covers (arguments.foldl enter c.values) names := by
  induction arguments generalizing c with
  | nil => exact ⟨rfl, hc⟩
  | cons a arguments ih =>
    have ha := h a List.mem_cons_self
    rw [List.foldlM_cons, bindArgument_of_accepts hc ha]
    exact ih (hc.enter ha) fun b hb => h b (List.mem_cons_of_mem a hb)

/-- The first argument that is refused decides the error. -/
theorem foldlM_bindArgument_of_refuses (hc : Covers c.values names)
    (h : ∀ a ∈ before, Accepts names a)
    (ha : Refuses names argument e) (after : List String) :
    (before ++ argument :: after).foldlM bindArgument c = .error e := by
  obtain ⟨hbefore, hcovers⟩ := foldlM_bindArgument hc h
  have hstop :=
    bindArgument_of_refuses (c := { c with values := before.foldl enter c.values }) hcovers ha
  have hrest :
      (argument :: after).foldlM bindArgument { c with values := before.foldl enter c.values } =
      .error e := by
    rw [List.foldlM_cons, hstop]
    rfl
  rw [List.foldlM_append, hbefore]
  exact hrest

theorem accepted_or_first_refused (names arguments : List String) :
    (∀ a ∈ arguments, Accepts names a) ∨ ∃ before a after e,
      arguments = before ++ a :: after ∧ (∀ b ∈ before, Accepts names b) ∧ Refuses names a e := by
  induction arguments with
  | nil => exact Or.inl fun _ h => absurd h List.not_mem_nil
  | cons a arguments ih =>
    rcases accepts_or_refuses names a with ha | ⟨e, ha⟩
    · rcases ih with hall | ⟨before, b, after, e, rfl, hbefore, hb⟩
      · exact Or.inl (List.forall_mem_cons.mpr ⟨ha, hall⟩)
      · exact Or.inr ⟨a :: before, b, after, e, rfl, List.forall_mem_cons.mpr ⟨ha, hbefore⟩, hb⟩
    · exact Or.inr ⟨[], a, arguments, e, rfl, fun _ h => absurd h List.not_mem_nil, ha⟩

/-! ### The values given -/

theorem Given.concat (h : Given arguments name v) (ha : ∀ w, ¬ Binds argument name w) :
    Given (arguments ++ [argument]) name v := by
  cases h with
  | @last before after a value hsplit hbinds hafter =>
    have hsplit' : arguments ++ [argument] = before ++ a :: (after ++ [argument]) := by
      simp [hsplit]
    refine .last hsplit' hbinds ?_
    exact List.forall_mem_append.mpr ⟨hafter, List.forall_mem_singleton.mpr ha⟩
  | unnamed hnone =>
    exact .unnamed (List.forall_mem_append.mpr ⟨hnone, List.forall_mem_singleton.mpr ha⟩)

theorem Given.of_concat (h : Given (arguments ++ [argument]) name v) :
    Binds argument name v ∨ (∀ w, ¬ Binds argument name w) ∧ Given arguments name v := by
  cases h with
  | last hsplit hbinds hafter =>
    rcases Grid.concat_eq_append_cons hsplit with ⟨-, rfl, -⟩ | ⟨after', rfl, rfl⟩
    · exact Or.inl hbinds
    · obtain ⟨hafter', ha⟩ := List.forall_mem_append.mp hafter
      exact Or.inr ⟨List.forall_mem_singleton.mp ha, .last rfl hbinds hafter'⟩
  | unnamed hnone =>
    obtain ⟨hnone', ha⟩ := List.forall_mem_append.mp hnone
    exact Or.inr ⟨List.forall_mem_singleton.mp ha, .unnamed hnone'⟩

/-- Arguments give one value to a name. -/
theorem Given.eq (hv : Given arguments name v) (hw : Given arguments name w) : v = w := by
  induction arguments using List.reverseRecOn with
  | nil =>
    cases hv with
    | last hsplit _ _ => simp at hsplit
    | unnamed _ =>
      cases hw with
      | last hsplit _ _ => simp at hsplit
      | unnamed _ => rfl
  | append_singleton arguments a ih =>
    rcases hv.of_concat with hv | ⟨hn, hv⟩ <;> rcases hw.of_concat with hw | ⟨hn', hw⟩
    · exact (hv.eq hw).2
    · exact absurd hv (hn' v)
    · exact absurd hw (hn w)
    · exact ih hv hw

/-- There is one answer. -/
theorem Answer.eq {line line' : String} (h : Answer expression arguments line)
    (h' : Answer expression arguments line') : line = line' := by
  cases h with
  | empty hb =>
    cases h' with
    | empty _ => rfl
    | value hread _ => exact nomatch (Expr.read_eq_ok_none_iff.mpr hb).symm.trans hread
  | value hread hgiven =>
    cases h' with
    | empty hb => exact nomatch (Expr.read_eq_ok_none_iff.mpr hb).symm.trans hread
    | value hread' hgiven' =>
      obtain rfl := Option.some.inj (Except.ok.inj (hread.symm.trans hread'))
      rw [Expr.floatValue_congr fun x hx => (hgiven x hx).eq (hgiven' x hx)]

/-- **What is found after the arguments have been entered** is what they give. -/
theorem exists_given (h : values.find? name = some 0) (arguments : List String) :
    ∃ v, (arguments.foldl enter values).find? name = some v ∧ Given arguments name v := by
  -- from the end: the last argument has the name, or it changes neither what is found nor what is
  -- given
  induction arguments using List.reverseRecOn with
  | nil => exact ⟨0, h, .unnamed fun _ h => absurd h List.not_mem_nil⟩
  | append_singleton arguments a ih =>
    obtain ⟨v, hv, hgiven⟩ := ih
    rw [List.foldl_append, List.foldl_cons, List.foldl_nil]
    by_cases ha : ∃ w, Binds a name w
    · obtain ⟨w, hbinds⟩ := ha
      refine ⟨w, by rw [enter_of_binds hbinds, Table.find?_insert, if_pos rfl], ?_⟩
      exact .last rfl hbinds fun _ h => absurd h List.not_mem_nil
    · have hother : (enter (arguments.foldl enter values) a).find? name =
          (arguments.foldl enter values).find? name := by
        rcases hparse : parseBinding a with e | ⟨key, value⟩
        · rw [enter, hparse]
        · have hbinds := parseBinding_eq_ok_iff.mp hparse
          have hkey : name ≠ key := fun he => ha ⟨value, he ▸ hbinds⟩
          rw [enter_of_binds hbinds, Table.find?_insert, if_neg hkey]
      exact ⟨v, hother.trans hv, hgiven.concat fun w hw => ha ⟨w, hw⟩⟩

instance : Std.Symm Apart where
  symm _ _ h name v w hb ha := h name w v ha hb

theorem enter_comm {a b : String} (h : Apart a b) (values : Table Float) :
    enter (enter values a) b = enter (enter values b) a := by
  rcases ha : parseBinding a with e | ⟨x, v⟩
  · simp only [enter, ha]
  rcases hb : parseBinding b with e | ⟨y, w⟩
  · simp only [enter, ha, hb]
  · have hne : x ≠ y :=
      fun he => h x v w (parseBinding_eq_ok_iff.mp ha) (he ▸ parseBinding_eq_ok_iff.mp hb)
    simp only [enter, ha, hb]
    exact Table.insert_comm hne values v w

/-- Arguments with different names may be entered in any order. -/
theorem foldl_enter_perm (h : block.Perm block') (hapart : block.Pairwise Apart)
    (values : Table Float) : block.foldl enter values = block'.foldl enter values := by
  refine h.foldl_eq' (fun a ha b hb values => ?_) values
  by_cases hab : a = b
  · rw [hab]
  · exact enter_comm (hapart.forall ha hb hab) values

/-! ### The line printed -/

theorem mem_positional {d : ℕ} {p : ℤ} {ch : Char} (h : ch ∈ Decimal.positional d p) :
    ch.isDigit = true ∨ ch = '.' := by
  have hdigits : ∀ ch ∈ ((digitsOf d).reverse.dropWhile (· == '0')).reverse,
      ch.isDigit = true := fun ch h =>
    isDigit_of_mem_digitsOf ch
      (List.mem_reverse.mp ((List.dropWhile_sublist _).mem (List.mem_reverse.mp h)))
  have hzeros : ∀ n, ∀ ch ∈ List.replicate n '0', ch.isDigit = true := fun n ch h => by
    rw [List.eq_of_mem_replicate h]
    rfl
  unfold Decimal.positional at h
  generalize ((digitsOf d).reverse.dropWhile (· == '0')).reverse = digits at h hdigits
  dsimp only at h
  split at h
  · rcases List.mem_append.mp h with h | h
    · exact Or.inl (hdigits ch h)
    · exact Or.inl (hzeros _ ch h)
  split at h
  · rcases List.mem_append.mp h with h | h
    · exact Or.inl (hdigits ch (List.mem_of_mem_take h))
    rcases List.mem_cons.mp h with rfl | h
    · exact Or.inr rfl
    · exact Or.inl (hdigits ch (List.mem_of_mem_drop h))
  · rcases List.mem_cons.mp h with rfl | h
    · exact Or.inl rfl
    rcases List.mem_cons.mp h with rfl | h
    · exact Or.inr rfl
    rcases List.mem_append.mp h with h | h
    · exact Or.inl (hzeros _ ch h)
    · exact Or.inl (hdigits ch h)

/-- A number is written on one line. -/
theorem newline_not_mem_write (x : Float) : '\n' ∉ (Decimal.write x).toList := by
  have hsign : ∀ negative, '\n' ∉ Decimal.Double.spelling.sign negative := by decide
  have hpositional : ∀ d p, '\n' ∉ Decimal.positional d p := fun d p h => by
    rcases mem_positional h with h | h <;> exact absurd h (by decide)
  rw [Decimal.write, String.toList_ofList, Decimal.Double.spelling.eq_def]
  split <;> simp [hsign, hpositional]

/-! ### The command -/

theorem told_of_compile (h : Calculator.compile expression = .ok c) :
    Calculator.Told c [.compile expression] := by
  have htold : Calculator.Told c ([] ++ [.compile expression]) := Calculator.told_compile h
  exact htold

theorem find?_of_compile (h : Calculator.compile expression = .ok c) (name : String) :
    c.values.find? name = if name ∈ c.vars then some 0 else none := (told_of_compile h).values name

theorem root_eq_none_iff_of_compile (h : Calculator.compile expression = .ok c) :
    c.root = none ↔ Blank expression.toList := by
  have hsource : c.source = expression := (told_of_compile h).source
  rw [(told_of_compile h).root_eq_none_iff, hsource]

theorem covers_of_compile (h : Calculator.compile expression = .ok c) : Covers c.values c.vars := by
  intro name
  rw [find?_of_compile h name]
  split <;> simp_all

theorem run_of_compile_error {err : Expr.Error} (h : Calculator.compile expression = .error err)
    (arguments : List String) (desk : Desk) :
    (evaluate expression arguments).run desk = (.error (.expression err), desk) := by
  simp only [run, action, evaluateExpression, h, EStateM.run_bind, run_settle_error]

theorem run_of_compile (h : Calculator.compile expression = .ok c) (arguments : List String)
    (desk : Desk) :
    (evaluate expression arguments).run desk =
      match arguments.foldlM bindArgument c with
      | .error e => (.error e, desk)
      | .ok c' =>
        match c'.evaluate with
        | .error err => (.error (.expression err), desk)
        | .ok value =>
          match (printLine (valueText value)).run desk with
          | .ok _ desk => (.ok (), desk)
          | .error e desk => (.error e, desk) := by
  simp only [run, action, evaluateExpression, h, EStateM.run_bind, run_settle_ok]
  rcases arguments.foldlM bindArgument c with e | c'
  · rfl
  · simp only [run_settle_ok]
    rcases c'.evaluate with err | value
    · rfl
    · rfl

theorem run_of_evaluate {value : Option Float} (hroom : desk.limit = none)
    (h : Calculator.compile expression = .ok c)
    (hfold : arguments.foldlM bindArgument c = .ok c') (hvalue : c'.evaluate = .ok value) :
    (evaluate expression arguments).run desk = (.ok (), desk.with (valueText value ++ "\n")) := by
  rw [run_of_compile h, hfold]
  dsimp only
  rw [hvalue]
  dsimp only
  rw [printLine, run_print desk hroom]

theorem compile_ne_unbound (name : String) :
    Calculator.compile expression ≠ .error (.unboundVariable name) := by
  intro h
  have hread := Calculator.compile_eq_error_iff.mp h
  by_cases hb : Expr.Balanced expression.toList
  · rcases Expr.read_error_cases hb hread with h | ⟨-, h | ⟨leaf, h⟩⟩ <;> exact nomatch h
  · have hn : ¬ Blank expression.toList := fun hn => hb (Expr.balanced_of_blank hn)
    exact nomatch (Expr.read_of_not_balanced hn hb).symm.trans hread

/-- The values of the variables after accepted arguments have been entered, as an assignment. -/
theorem exists_assigned (h : Calculator.compile expression = .ok c) (arguments : List String) :
    ∃ assigned : String → Float, ∀ x ∈ c.vars,
      (arguments.foldl enter c.values).find? x = some (assigned x) ∧
        Given arguments x (assigned x) := by
  have hgiven : ∀ x, ∃ v, x ∈ c.vars →
      (arguments.foldl enter c.values).find? x = some v ∧ Given arguments x v := by
    intro x
    by_cases hx : x ∈ c.vars
    · obtain ⟨v, hv⟩ := exists_given ((find?_of_compile h x).trans (if_pos hx)) arguments
      exact ⟨v, fun _ => hv⟩
    · exact ⟨0, fun h => absurd h hx⟩
  exact Classical.skolem.mp hgiven

/-- **With arguments that are all accepted** the answer is printed. -/
theorem exists_run_of_accepted (hroom : desk.limit = none)
    (h : Calculator.compile expression = .ok c)
    (ha : ∀ a ∈ arguments, Accepts c.vars a) : ∃ line, Answer expression arguments line ∧
    '\n' ∉ line.toList ∧
      (evaluate expression arguments).run desk = (.ok (), desk.with (line ++ "\n")) := by
  obtain ⟨hfold, -⟩ := foldlM_bindArgument (covers_of_compile h) ha
  obtain ⟨assigned, hassigned⟩ := exists_assigned h arguments
  obtain ⟨root, hread, hc⟩ := Calculator.exists_read_of_compile h
  rcases root with _ | tree
  · have hvalue : Calculator.evaluate { c with values := arguments.foldl enter c.values } =
        .ok none := by
      rw [hc]
      rfl
    exact ⟨"(empty)", .empty (Expr.read_eq_ok_none_iff.mp hread), by decide,
      run_of_evaluate hroom h hfold hvalue⟩
  · have hroot : c.root = some (tree.map fun digits => Decimal.ofDigits digits.toList) := by
      rw [hc]; rfl
    have hvars : c.vars = tree.vars := by
      rw [Calculator.vars, hroot]
      exact Expr.vars_map _ tree
    have hvalue : Calculator.evaluate { c with values := arguments.foldl enter c.values } =
        .ok (some (tree.floatValue assigned)) := by
      rw [Calculator.evaluate, hroot]
      dsimp only
      rw [Expr.evaluate_eq_value fun x hx => (hassigned x (by rwa [hvars, ← Expr.vars_map])).1,
        Expr.value_onFloats]
      rfl
    have hanswer : Answer expression arguments (Decimal.write (tree.floatValue assigned)) :=
      .value hread fun x hx => (hassigned x (hvars ▸ hx)).2
    have hrun := run_of_evaluate hroom h hfold hvalue
    rw [valueText] at hrun
    exact ⟨_, hanswer, newline_not_mem_write _, hrun⟩

/-- The first argument that is refused decides the outcome. -/
theorem run_of_refused (h : Calculator.compile expression = .ok c)
    (hb : ∀ a ∈ before, Accepts c.vars a)
    (ha : Refuses c.vars argument e) (after : List String) (desk : Desk) :
    (evaluate expression (before ++ argument :: after)).run desk = (.error e, desk) := by
  rw [run_of_compile h, foldlM_bindArgument_of_refuses (covers_of_compile h) hb ha]

theorem run_of_fails (h : Fails expression arguments e) (desk : Desk) :
    (evaluate expression arguments).run desk = (.error e, desk) := by
  cases h with
  | expression h => exact run_of_compile_error h arguments desk
  | argument h hsplit hb ha => rw [hsplit, run_of_refused h hb ha]

theorem accepted_or_fails (expression : String) (arguments : List String) :
    (∃ c, Calculator.compile expression = .ok c ∧ ∀ a ∈ arguments, Accepts c.vars a) ∨
      ∃ e, Fails expression arguments e := by
  rcases hc : Calculator.compile expression with err | c
  · exact Or.inr ⟨_, .expression hc⟩
  · rcases accepted_or_first_refused c.vars arguments
      with ha | ⟨before, a, after, e, hsplit, hb, ha⟩
    · exact Or.inl ⟨c, rfl, ha⟩
    · exact Or.inr ⟨e, .argument hc hsplit hb ha⟩

theorem Fails.ne_unbound (h : Fails expression arguments e) (name : String) :
    e ≠ .expression (.unboundVariable name) := by
  cases h with
  | @expression err h =>
    exact fun he => compile_ne_unbound name (h.trans (by rw [Error.expression.inj he]))
  | argument _ _ _ ha => cases ha <;> simp

theorem run_perm (h : Calculator.compile expression = .ok c) (hperm : block.Perm block')
    (ha : ∀ a ∈ block, Accepts c.vars a) (hapart : block.Pairwise Apart)
    (before after : List String) (desk : Desk) :
    (evaluate expression (before ++ block' ++ after)).run desk =
      (evaluate expression (before ++ block ++ after)).run desk := by
  rcases accepted_or_first_refused c.vars before
    with hbefore | ⟨front, a, back, e, rfl, hfront, hrefused⟩
  · have hall : ∀ a ∈ before ++ block, Accepts c.vars a := List.forall_mem_append.mpr ⟨hbefore, ha⟩
    have hall' : ∀ a ∈ before ++ block', Accepts c.vars a :=
      List.forall_mem_append.mpr ⟨hbefore, fun a h => ha a (hperm.mem_iff.mpr h)⟩
    have hsame : (before ++ block').foldl enter c.values =
        (before ++ block).foldl enter c.values := by
      rw [List.foldl_append, List.foldl_append, foldl_enter_perm hperm hapart]
    obtain ⟨hfold, -⟩ := foldlM_bindArgument (covers_of_compile h) hall
    obtain ⟨hfold', -⟩ := foldlM_bindArgument (covers_of_compile h) hall'
    have hloop : (before ++ block' ++ after).foldlM bindArgument c =
        (before ++ block ++ after).foldlM bindArgument c := by
      rw [List.foldlM_append, hfold', List.foldlM_append, hfold, hsame]
    rw [run_of_compile h, run_of_compile h, hloop]
  -- an argument in front of the block is refused, and neither run comes to the block
  · have hrun : ∀ rest, (evaluate expression (front ++ a :: (back ++ rest))).run desk =
        (.error e, desk) :=
      fun rest => run_of_refused h hfront hrefused (back ++ rest) desk
    simp only [List.append_assoc, List.cons_append]
    rw [hrun, hrun]

/-- **The command that evaluates an expression**, on an output with room.

It succeeds exactly if the expression compiles and every argument gives a value to one of its
variables, and then it prints the answer, of which there is one, on one line. Otherwise it prints
nothing, and the error is that of the expression or else that of the first argument that is refused;
it is never that of a variable without a value. Arguments that give values to different variables
may stand in any order, whatever stands around them. -/
theorem evaluation_by_arguments (expression : String) (arguments : List String)
    (hroom : desk.limit = none) :
    (((evaluate expression arguments).run desk).1 = .ok () ↔
      ∃ c, Calculator.compile expression = .ok c ∧ ∀ a ∈ arguments, Accepts c.vars a) ∧
    (∀ c, Calculator.compile expression = .ok c → (∀ a ∈ arguments, Accepts c.vars a) → ∃ line,
      (∀ line', Answer expression arguments line' ↔ line' = line) ∧ '\n' ∉ line.toList ∧
        (evaluate expression arguments).run desk = (.ok (), desk.with (line ++ "\n"))) ∧
    (∀ e, ((evaluate expression arguments).run desk).1 = .error e ↔ Fails expression arguments e) ∧
    (∀ e, ((evaluate expression arguments).run desk).1 = .error e →
      ((evaluate expression arguments).run desk).2 = desk ∧
        ∀ name, e ≠ .expression (.unboundVariable name)) ∧
    ∀ c before block block' after, Calculator.compile expression = .ok c →
      arguments = before ++ block ++ after →
      block.Perm block' → (∀ a ∈ block, Accepts c.vars a) → block.Pairwise Apart →
        (evaluate expression (before ++ block' ++ after)).run desk =
          (evaluate expression arguments).run desk := by
  have hok : ∀ c, Calculator.compile expression = .ok c → (∀ a ∈ arguments, Accepts c.vars a) →
      ((evaluate expression arguments).run desk).1 = .ok () := fun c hc ha => by
    obtain ⟨line, -, -, hrun⟩ := exists_run_of_accepted hroom hc ha
    rw [hrun]
  have hfails : ∀ e, ((evaluate expression arguments).run desk).1 = .error e →
      Fails expression arguments e := by
    intro e he
    rcases accepted_or_fails expression arguments with ⟨c, hc, ha⟩ | ⟨e', hf⟩
    · exact nomatch (hok c hc ha).symm.trans he
    · rw [run_of_fails hf] at he
      exact Except.error.inj he ▸ hf
  refine ⟨⟨fun h => ?_, fun ⟨c, hc, ha⟩ => hok c hc ha⟩, fun c hc ha => ?_,
    fun e => ⟨hfails e, fun hf => by rw [run_of_fails hf]⟩, fun e he =>
      ⟨?_, (hfails e he).ne_unbound⟩, ?_⟩
  · refine (accepted_or_fails expression arguments).resolve_right fun ⟨e, hf⟩ => ?_
    rw [run_of_fails hf] at h
    exact nomatch h
  · obtain ⟨line, hanswer, hline, hrun⟩ := exists_run_of_accepted hroom hc ha
    refine ⟨line, fun line' => ⟨fun h => h.eq hanswer, ?_⟩, hline, hrun⟩
    rintro rfl
    exact hanswer
  · rw [run_of_fails (hfails e he)]
  · rintro c before block block' after hc rfl hperm ha hapart
    exact run_perm hc hperm ha hapart before after desk

/-- The tree that is read from `7/x+2*x-y`. -/
def sampleTree : Expr String :=
  .operation .add (.operation .divide (.const "7") (.var "x"))
    (.operation .subtract (.operation .multiply (.const "2") (.var "x")) (.var "y"))

theorem binds_first : Binds "x=1" "x" 1 := ⟨['x'], ['1'], rfl, by decide, rfl, by decide⟩

theorem binds_second : Binds " x = 2" "x" 2 :=
  ⟨[' ', 'x', ' '], [' ', '2'], rfl, by decide, rfl, by decide⟩

/-- The last value of a name counts, and a variable without an argument is 0. -/
theorem given_sample : ∀ x ∈ sampleTree.vars,
    Given ["x=1", " x = 2"] x (if x = "x" then 2 else 0) := by
  have hx : Given ["x=1", " x = 2"] "x" 2 := by
    have hsplit : ["x=1", " x = 2"] = ["x=1"] ++ " x = 2" :: [] := rfl
    exact .last hsplit binds_second (by simp)
  have hy : Given ["x=1", " x = 2"] "y" 0 := by
    refine .unnamed
      (List.forall_mem_cons.mpr ⟨fun w hw => ?_, List.forall_mem_singleton.mpr fun w hw => ?_⟩)
    · exact absurd (binds_first.eq hw).1 (by decide)
    · exact absurd (binds_second.eq hw).1 (by decide)
  simp [sampleTree, Expr.vars, hx, hy]

theorem answer_sample : Answer "7/x+2*x-y" ["x=1", " x = 2"] "7.5" := by
  have hread : (Expr.read "7/x+2*x-y").result = .ok (some sampleTree) := rfl
  have hvalue : sampleTree.floatValue (fun x => if x = "x" then 2 else 0) = 7.5 := by decide +kernel
  have hwrite : Decimal.write 7.5 = "7.5" := by decide +kernel
  have hanswer : Answer "7/x+2*x-y" ["x=1", " x = 2"] _ := .value hread given_sample
  rwa [hvalue, hwrite] at hanswer

/-- Quotient, product and difference are printed as one number. An argument with a name that is no
variable is refused, after one that is accepted and before one without a value. -/
theorem answer_and_refusal : (Desk.start .empty none).limit = none ∧
    (evaluate "7/x+2*x-y" ["x=1", " x = 2"]).run (.start .empty none) =
      (.ok (), (Desk.start .empty none).with "7.5\n") ∧
    (evaluate "x+ y*2" ["x = 1", " z=2", "y"]).run (.start .empty none) =
      (.error (.expression (.unknownVariable "z")), .start .empty none) := by
  refine ⟨rfl, ?_, ?_⟩
  · obtain ⟨-, hprinted, -⟩ :=
      @evaluation_by_arguments (.start .empty none) "7/x+2*x-y" ["x=1", " x = 2"] rfl
    have hc : ∃ c, Calculator.compile "7/x+2*x-y" = .ok c ∧ c.vars = ["x", "x", "y"] :=
      ⟨_, rfl, rfl⟩
    obtain ⟨c, hc, hvars⟩ := hc
    have haccepted : ∀ a ∈ ["x=1", " x = 2"], Accepts c.vars a := by
      rw [hvars, List.forall_mem_cons, List.forall_mem_singleton]
      exact ⟨⟨"x", by simp, 1, binds_first⟩, ⟨"x", by simp, 2, binds_second⟩⟩
    obtain ⟨line, hanswer, -, hrun⟩ := hprinted c hc haccepted
    rw [hrun, ← (hanswer "7.5").mp answer_sample]
    rfl
  · obtain ⟨-, -, herror, hdesk, -⟩ :=
      @evaluation_by_arguments (.start .empty none) "x+ y*2" ["x = 1", " z=2", "y"] rfl
    have hc : ∃ c, Calculator.compile "x+ y*2" = .ok c ∧ c.vars = ["x", "y"] := ⟨_, rfl, rfl⟩
    obtain ⟨c, hc, hvars⟩ := hc
    have hx : Binds "x = 1" "x" 1 := ⟨['x', ' '], [' ', '1'], rfl, by decide, rfl, by decide⟩
    have hz : Binds " z=2" "z" 2 := ⟨[' ', 'z'], ['2'], rfl, by decide, rfl, by decide⟩
    have hfails : Fails "x+ y*2" ["x = 1", " z=2", "y"] (.expression (.unknownVariable "z")) := by
      have hsplit : ["x = 1", " z=2", "y"] = ["x = 1"] ++ " z=2" :: ["y"] := rfl
      refine .argument hc hsplit ?_ (.unknown hz ?_)
      · exact List.forall_mem_singleton.mpr ⟨"x", by simp [hvars], _, hx⟩
      · simp [hvars]
    have h := (herror _).mpr hfails
    exact Prod.ext h (hdesk _ h).1

end Command
end Worksheet
