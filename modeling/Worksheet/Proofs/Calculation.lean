import Worksheet.Calculator
import Worksheet.Proofs.Bindings
import Worksheet.Proofs.Grammar

/-! # Histories of a calculator

Reading collects variables on the side, those of parts read before a failure among them. When it
succeeds they are the variables of the tree that is read (`read_vars`), so that every variable of a
compiled expression has a value, and evaluating it never fails (`exists_evaluate`).

A calculator that starts empty is worked on by calls, of which any may fail. `Told` says what it
holds then in terms of the calls that succeeded, `told_after` what one more call makes of that, and
`history_determines_calculator` is the statement on the whole history. -/

namespace Worksheet

namespace Expr

variable {source : String} {s : List Char} {tree : Expr String}

/-! ### The variables of what is read -/

theorem vars_readLeaf (h : (readLeaf s).result = .ok tree) : (readLeaf s).vars = tree.vars := by
  unfold readLeaf at h ⊢
  split
  · next hd =>
    rw [if_pos hd] at h
    rw [← Except.ok.inj h, vars]
  · next hd =>
    rw [if_neg hd] at h
    split
    · next hi =>
      rw [if_pos hi] at h
      rw [← Except.ok.inj h, vars]
    · next hi =>
      rw [if_neg hi] at h
      cases h

theorem Plan.vars_reading {p : Plan} {n : ℕ} (h : (p.reading source n).result = .ok tree) :
    (p.reading source n).vars = tree.vars := by
  induction n generalizing p tree with
  | zero => exact nomatch h
  | succ n ih =>
    rcases p with _ | text | inner | ⟨op, left, right⟩
    · exact nomatch h
    · exact vars_readLeaf h
    · exact ih h
    · rw [reading] at h ⊢
      obtain ⟨l, r, hl, hr, rfl⟩ := Reading.operation_result_eq_ok_iff.mp h
      simp only [Reading.operation, hl, ih hl, ih hr, vars]

/-- **The variables met in reading are those of the tree**, from left to right. -/
theorem read_vars {root : Option (Expr String)} (h : (read source).result = .ok root) :
    (read source).vars = root.elim [] vars := by
  rcases root with _ | root
  · have hb : Text.trim source.toList = [] := Text.trim_eq_nil_iff.mpr (read_eq_ok_none_iff.mp h)
    unfold read
    rw [hb]
    rfl
  · have hn : ¬ Text.Blank source.toList := fun hn => by
      rw [read_of_blank hn] at h
      exact nomatch h
    have hb : Balanced source.toList := by
      by_contra hb
      rw [read_of_not_balanced hn hb] at h
      exact nomatch h
    rw [read_of_balanced hn hb] at h ⊢
    exact Plan.vars_reading (Reading.map_some_eq_ok_iff.mp h)

end Expr

namespace Calculator

/-- The variables of the expression, from left to right. -/
def vars (c : Calculator) : List String := c.root.elim [] Expr.vars

/-- A call of a calculator. -/
inductive Call where
  | compile (source : String)
  | assign (name : String) (value : Float)
  | evaluate

variable {c c' : Calculator} {calls : List Call} {call : Call}

namespace Call

/-- The calculator that a call makes of one, if it succeeds. -/
def outcome (c : Calculator) : Call → Except Expr.Error Calculator
  | compile source => Calculator.compile source
  | assign name value => c.assign name value
  | evaluate => c.evaluate.map fun _ => c

/-- The calculator after a call. One that fails leaves it as it is. -/
def after (c : Calculator) (call : Call) : Calculator :=
  match call.outcome c with
  | .ok c' => c'
  | .error _ => c

/-- The source that a call compiles. -/
def source? : Call → Option String
  | compile source => some source
  | _ => none

/-- The value that a call gives to a variable. -/
def valueFor? (name : String) : Call → Option Float
  | assign key value => if key = name then some value else none
  | _ => none

end Call

/-- The calculator after calls on the empty one. -/
def run (calls : List Call) : Calculator := calls.foldl Call.after empty

/-- Those of the calls on a calculator that succeed. -/
def succeeding : Calculator → List Call → List Call
  | _, [] => []
  | c, call :: calls =>
    if (call.outcome c).isOk then call :: succeeding (call.after c) calls
      else succeeding (call.after c) calls

/-- The source compiled last, the empty one if there is none. -/
def lastSource (calls : List Call) : String := (calls.reverse.findSome? Call.source?).getD ""

/-- The value given to a variable last since the last compilation, 0 if there is none. -/
def lastValue (name : String) (calls : List Call) : Float :=
  ((calls.reverse.takeWhile fun call => call.source?.isNone).findSome? (Call.valueFor? name)).getD 0

/-! ### One more call -/

theorem run_concat (calls : List Call) (call : Call) :
    run (calls ++ [call]) = call.after (run calls) := by
  simp [run]

theorem succeeding_concat (c : Calculator) (calls : List Call) (call : Call) :
    succeeding c (calls ++ [call]) =
      succeeding c calls ++
        if (call.outcome (calls.foldl Call.after c)).isOk then [call] else [] := by
  induction calls generalizing c with
  | nil => rfl
  | cons first calls ih =>
    rw [List.cons_append, succeeding, succeeding, ih, List.foldl_cons]
    split
    · rw [List.cons_append]
    · rfl

theorem lastSource_concat (calls : List Call) (call : Call) :
    lastSource (calls ++ [call]) = call.source?.getD (lastSource calls) := by
  rcases h : call.source? with _ | source <;> simp [lastSource, h]

theorem lastValue_concat (name : String) (calls : List Call) (call : Call) :
    lastValue name (calls ++ [call]) =
      if call.source?.isSome then 0 else (call.valueFor? name).getD (lastValue name calls) := by
  rcases h : call.source? with _ | source
  · rcases hv : call.valueFor? name with _ | value <;> simp [lastValue, h, hv]
  · simp [lastValue, h]

/-- What a calculator holds, in terms of the calls that have succeeded: the source compiled last,
the tree read from it, and for each variable of the tree, and no other, the value given to it
last. -/
structure Told (c : Calculator) (done : List Call) : Prop where
  source : c.source = lastSource done
  root : (Expr.read c.source).result.map
    (Option.map (Expr.map fun digits => Decimal.ofDigits digits.toList)) = .ok c.root
  values : ∀ name, c.values.find? name = if name ∈ c.vars then some (lastValue name done) else none

theorem told_empty : Told empty [] where
  source := rfl
  root := by
    have hread : (Expr.read "").result = .ok none :=
      Expr.read_of_blank fun _ h => absurd h (by simp)
    have hsource : empty.source = "" := rfl
    rw [hsource, hread]
    rfl
  values _ := rfl

theorem assign_of_mem {done : List Call} (hc : Told c done) {name : String} (h : name ∈ c.vars)
    (value : Float) :
    c.assign name value = .ok { c with values := c.values.insert name value } := by
  unfold assign
  rw [hc.values, if_pos h]

theorem assign_of_not_mem {done : List Call} (hc : Told c done) {name : String} (h : name ∉ c.vars)
    (value : Float) : c.assign name value = .error (.unknownVariable name) := by
  unfold assign
  rw [hc.values, if_neg h]

/-- What is compiled is what is read, with the table of its variables. -/
theorem exists_read_of_compile {source : String} (h : compile source = .ok c) :
    ∃ root, (Expr.read source).result = .ok root ∧
      c = ⟨source, root.map (·.map fun digits => Decimal.ofDigits digits.toList),
        .constant (root.elim [] Expr.vars) 0⟩ := by
  unfold compile at h
  rcases hr : (Expr.read source).result with e | root
  · simp [hr, Except.map] at h
  · simp only [hr, Except.map, Except.ok.injEq, Expr.read_vars hr] at h
    exact ⟨root, rfl, h.symm⟩

theorem compile_eq_error_iff {source : String} {e : Expr.Error} :
    compile source = .error e ↔ (Expr.read source).result = .error e := by
  rcases h : (Expr.read source).result with e' | root <;> simp [compile, h, Except.map]

theorem told_compile {done : List Call} {source : String} (h : compile source = .ok c) :
    Told c (done ++ [.compile source]) := by
  obtain ⟨root, hr, rfl⟩ := exists_read_of_compile h
  refine ⟨by rw [lastSource_concat]; rfl, by rw [hr]; rfl, fun name => ?_⟩
  have hvars : vars ⟨source, root.map (·.map fun digits => Decimal.ofDigits digits.toList),
      .constant (root.elim [] Expr.vars) 0⟩ = root.elim [] Expr.vars := by
    rcases root with _ | tree
    · rfl
    · exact Expr.vars_map _ tree
  rw [hvars, lastValue_concat]
  exact Table.find?_constant _ _ _

theorem told_assign {done : List Call} (hc : Told c done) {name : String} {value : Float}
    (h : name ∈ c.vars) :
    Told { c with values := c.values.insert name value } (done ++ [.assign name value]) where
  source := by
    rw [lastSource_concat]
    exact hc.source
  root := hc.root
  values key := by
    have hvars : vars { c with values := c.values.insert name value } = c.vars := rfl
    rw [hvars, lastValue_concat, Table.find?_insert, hc.values]
    by_cases hk : key = name
    · subst hk
      simp [h, Call.source?, Call.valueFor?]
    · simp [hk, Ne.symm hk, Call.source?, Call.valueFor?]

theorem told_evaluate {done : List Call} (hc : Told c done) : Told c (done ++ [.evaluate]) where
  source := by
    rw [lastSource_concat]
    exact hc.source
  root := hc.root
  values name := by
    rw [lastValue_concat]
    exact hc.values name

/-- **What a call does**: if it succeeds it is told, and otherwise nothing changes. -/
theorem told_after {done : List Call} (hc : Told c done) (call : Call) :
    Told (call.after c) (done ++ if (call.outcome c).isOk then [call] else []) := by
  rcases ho : call.outcome c with e | c'
  · rw [Call.after, ho]
    simpa [Except.isOk, Except.toBool] using hc
  rw [Call.after, ho]
  show Told c' (done ++ [call])
  cases call with
  | compile source => exact told_compile ho
  | assign name value =>
    by_cases h : name ∈ c.vars
    · obtain rfl := Except.ok.inj ((assign_of_mem hc h value).symm.trans ho)
      exact told_assign hc h
    · exact nomatch (assign_of_not_mem hc h value).symm.trans ho
  | evaluate =>
    rcases he : c.evaluate with e | v
    · simp [Call.outcome, he, Except.map] at ho
    · simp only [Call.outcome, he, Except.map, Except.ok.injEq] at ho
      subst ho
      exact told_evaluate hc

/-! ### What a history does -/

theorem told_run (calls : List Call) : Told (run calls) (succeeding empty calls) := by
  induction calls using List.reverseRecOn with
  | nil => exact told_empty
  | append_singleton calls call ih =>
    rw [run_concat, succeeding_concat]
    exact told_after ih call

/-- Only a blank source has no root. -/
theorem Told.root_eq_none_iff {done : List Call} (hc : Told c done) :
    c.root = none ↔ Text.Blank c.source.toList := by
  rw [← Expr.read_eq_ok_none_iff]
  have hroot := hc.root
  rcases hr : (Expr.read c.source).result with e | root
  · rw [hr] at hroot
    exact nomatch hroot
  · rw [hr] at hroot
    rw [← Except.ok.inj hroot]
    simp

/-- An expression whose variables all have values is evaluated, and has no value only if it is
blank. -/
theorem exists_evaluate {done : List Call} (hc : Told c done) :
    ∃ v, c.evaluate = .ok v ∧ (v = none ↔ Text.Blank c.source.toList) := by
  have hblank := hc.root_eq_none_iff
  rcases hroot : c.root with _ | root
  · exact ⟨none, by simp [evaluate, hroot], by simp [← hblank, hroot]⟩
  · have hvars : c.vars = root.vars := by rw [vars, hroot]; rfl
    have hvalues : ∀ x ∈ root.vars, ∃ v, c.values.find? x = some v := fun x hx =>
      ⟨lastValue x done, by rw [hc.values, if_pos (hvars ▸ hx)]⟩
    obtain ⟨v, hv⟩ : ∃ v, root.evaluate Operator.onFloats c.values = .ok v :=
      Expr.exists_evaluate_iff.mpr hvalues
    exact ⟨some v, by simp [evaluate, hroot, hv, Except.map], by simp [← hblank, hroot]⟩

/-- **What a history leaves.** After any calls on the empty calculator, whether they succeed or
fail: the source is the one compiled last with success, and the root is what is read from it; the
variables that have a value are exactly those of the root, and each has the value given to it last,
with success, since that compilation, or 0; a next call that fails changes nothing; giving a value
fails exactly for names that are no variables of the root; and evaluating never fails, and gives no
value exactly if the source is blank. -/
theorem history_determines_calculator (calls : List Call) :
    (run calls).source = lastSource (succeeding empty calls) ∧
    (Expr.read (run calls).source).result.map
      (Option.map (Expr.map fun digits => Decimal.ofDigits digits.toList)) = .ok (run calls).root ∧
    (∀ name, (run calls).values.find? name =
      if name ∈ (run calls).vars then some (lastValue name (succeeding empty calls)) else none) ∧
    (∀ call e, Call.outcome (run calls) call = .error e → run (calls ++ [call]) = run calls) ∧
    (∀ name value, (run calls).assign name value = .error (.unknownVariable name) ↔
      name ∉ (run calls).vars) ∧
    (∀ name value, (∃ c, (run calls).assign name value = .ok c) ↔ name ∈ (run calls).vars) ∧
    ∃ v, (run calls).evaluate = .ok v ∧ (v = none ↔ Text.Blank (run calls).source.toList) := by
  have ht := told_run calls
  refine ⟨ht.source, ht.root, ht.values, fun call e he => ?_, fun name value => ?_,
    fun name value => ?_,
    exists_evaluate ht⟩
  · rw [run_concat, Call.after, he]
  · by_cases h : name ∈ (run calls).vars
    · rw [assign_of_mem ht h]
      simp [h]
    · simp [assign_of_not_mem ht h, h]
  · by_cases h : name ∈ (run calls).vars
    · simp [assign_of_mem ht h, h]
    · simp [assign_of_not_mem ht h, h]

end Calculator

end Worksheet
