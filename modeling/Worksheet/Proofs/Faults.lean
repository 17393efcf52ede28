import Worksheet.Proofs.Grammar

/-! # The first fault of a source

A source may have many faults at once: operands that are missing, leaves that are no operands, parts
that lie too deep. `IsPlan` tells without the scans of the parser how a balanced text is taken
apart, and a text has one plan only (`isPlan_iff`). A walk over the plan goes through its nodes in
order, each before its parts and the left side before the right one (`Plan.nodes`), and a node is at
fault by itself (`Plan.Node.fault?`). What is read is told by the walk alone (`Walked`): the error
is that of the first node at fault, and the variables are those met before it
(`first_fault_decides`). -/

namespace Worksheet.Expr

open Worksheet.Text

variable {source : String} {s l r : List Char} {op : Operator}

/-! ### The plan of a balanced text -/

/-- **How a balanced text is taken apart**: a blank text is an operand that is missing; a pair of
parentheses that wraps the whole text is taken away; otherwise the text is split at an operator
outside all parentheses, the first one of `Operator.splitOrder` that has such a place, at its last
one; and a text without such places is a leaf. -/
inductive IsPlan : List Char → Plan → Prop
  | blank {s : List Char} (h : Blank s) : IsPlan s .blank
  | paren {s inner : List Char} {p : Plan} (h : trim s = '(' :: (inner ++ [')']))
      (hb : Balanced inner)
      (hp : IsPlan inner p) : IsPlan s (.paren p)
  | split {s l r : List Char} (op : Operator) {p q : Plan} (h : LastCut (trim s) l op.symbol r)
      (hfirst : ∀ a ∈ Operator.splitOrder.takeWhile (· ≠ op),
      ∀ l' r', ¬ Cuts (trim s) l' (Operator.symbol a) r')
      (hp : IsPlan l p) (hq : IsPlan r q) : IsPlan s (.split op p q)
  | leaf {s : List Char} (hn : ¬ Blank s) (hw : ∀ inner, trim s = '(' :: (inner ++ [')']) →
      ¬ Balanced inner)
      (hc : ∀ (op : Operator) l r, ¬ Cuts (trim s) l op.symbol r) : IsPlan s (.leaf (trim s))

/-- No pair of parentheses wraps a text with an operator outside of all. -/
theorem inside?_eq_none_of_cuts (h : Cuts s l op.symbol r) : inside? s = none := by
  refine Option.eq_none_iff_forall_ne_some.mpr fun t ht => ?_
  obtain ⟨rfl, hb⟩ := inside?_eq_some_iff.mp ht
  exact not_cuts_wrap hb (depthStep_symbol op) h

theorem isPlan_plan (hs : Balanced s) : IsPlan s (plan s) := by
  fun_induction plan s with
  | case1 s hn => exact .blank (trim_eq_nil_iff.mp hn)
  | case2 s hn inner hi ih =>
    obtain ⟨hw, hb⟩ := inside?_eq_some_iff.mp hi
    exact .paren hw hb (ih hb)
  | case3 s hn hi op left right hsplit ihl ihr =>
    have ht := balanced_trim_iff.mpr hs
    have hlast := lastCut_of_split? ht hsplit
    refine .split op hlast (fun a ha => ?_) (ihl hlast.left) (ihr hlast.right)
    exact (cutAtLast?_eq_none_iff ht (depthStep_symbol a)).mp
      ((split?_eq_some_iff.mp hsplit).2 a ha)
  | case4 s hn hi hsplit =>
    refine .leaf (fun hb => hn (trim_eq_nil_iff.mpr hb)) (fun inner hw hb => ?_) fun op l r => ?_
    · exact absurd (hi.symm.trans (inside?_eq_some_iff.mpr ⟨hw, hb⟩)) (by simp)
    · exact not_cuts_of_cutAtLast? (split?_eq_none_iff.mp hsplit op)

theorem IsPlan.eq_plan {p : Plan} (h : IsPlan s p) (hs : Balanced s) : p = plan s := by
  induction h with
  | blank h => exact (plan_of_blank (trim_eq_nil_iff.mpr h)).symm
  | paren h hb hp ih => rw [plan_of_inside? (inside?_eq_some_iff.mpr ⟨h, hb⟩), ih hb]
  | split op h hfirst hp hq ihp ihq =>
    have ht := balanced_trim_iff.mpr hs
    have hsplit :=
        split?_eq_some_iff.mpr ⟨(cutAtLast?_eq_some_iff ht (depthStep_symbol op)).mpr h, fun a ha =>
      (cutAtLast?_eq_none_iff ht (depthStep_symbol a)).mpr (hfirst a ha)⟩
    rw [plan_of_split? (inside?_eq_none_of_cuts h.toCuts) hsplit, ihp h.left, ihq h.right]
  | leaf hn hw hc =>
    have ht := balanced_trim_iff.mpr hs
    have hi : inside? (trim _) = none := Option.eq_none_iff_forall_ne_some.mpr fun t hi =>
      hw t (inside?_eq_some_iff.mp hi).1 (inside?_eq_some_iff.mp hi).2
    have hsplit :=
      split?_eq_none_iff.mpr fun op => (cutAtLast?_eq_none_iff ht (depthStep_symbol op)).mpr (hc op)
    exact (plan_of_leaf (fun h => hn (trim_eq_nil_iff.mp h)) hi hsplit).symm

/-- **A balanced text has one plan.** -/
theorem isPlan_iff (hs : Balanced s) {p : Plan} : IsPlan s p ↔ p = plan s := by
  refine ⟨fun h => h.eq_plan hs, ?_⟩
  rintro rfl
  exact isPlan_plan hs

/-! ### Walking over a plan -/

namespace Plan

/-- A part of a plan, with the number of pairs of parentheses and splits around it. -/
structure Node where
  level : ℕ
  part : Plan

/-- The nodes of a plan in the order of a walk: each before its parts, and the left side before the
right one. -/
def nodes (level : ℕ) : Plan → List Node
  | blank => [⟨level, blank⟩]
  | leaf text => [⟨level, leaf text⟩]
  | paren inner => ⟨level, paren inner⟩ :: inner.nodes (level + 1)
  | split op left right =>
    ⟨level, split op left right⟩ :: (left.nodes (level + 1) ++ right.nodes (level + 1))

namespace Node

/-- The fault of a node, looked for in this order: it lies too deep, it is blank, or it is a leaf
but no operand. -/
def fault? (source : String) (v : Node) : Option Error :=
  if maxLevels < v.level then some (.tooDeep maxLevels)
  else
    match v.part with
    | .blank => some (.missingOperand source)
    | .leaf text =>
      if isDigits text || isIdentifier text then none
        else some (.invalidOperand (String.ofList text))
    | .paren _ | .split .. => none

/-- The variable that a node is. -/
def name? (v : Node) : Option String :=
  match v.part with
  | .leaf text => if isIdentifier text then some (String.ofList text) else none
  | _ => none

end Node

/-- The nodes before the first one at fault. -/
def flawless (source : String) (nodes : List Node) : List Node :=
  nodes.takeWhile fun v => (v.fault? source).isNone

/-- **The reading is the one that a walk over the nodes leads to**: its error is that of the first
node at fault, and its variables are those before it. -/
structure Walked (source : String) (nodes : List Node)
    (reading : Reading (Expr String)) : Prop where
  error_iff : ∀ e, reading.result = .error e ↔ nodes.findSome? (·.fault? source) = some e
  vars : reading.vars = (flawless source nodes).filterMap Node.name?

namespace Walked

variable {v : Node} {nodes nodes' : List Node}
    {reading left right : Reading (Expr String)} {e : Error}

/-- The walk ends at a node at fault. -/
theorem fail (h : v.fault? source = some e) : Walked source (v :: nodes) (.fail e) where
  error_iff e' := by simp [Reading.fail, h]
  vars := by simp [Reading.fail, flawless, h]

/-- A node that is neither at fault nor a variable is passed by. -/
theorem cons (h : v.fault? source = none) (hname : v.name? = none)
    (hw : Walked source nodes reading) : Walked source (v :: nodes) reading where
  error_iff e := by rw [hw.error_iff, List.findSome?_cons, h]
  vars := by simp [hw.vars, flawless, h, hname]

theorem findSome?_eq_none {tree : Expr String} (hw : Walked source nodes reading)
    (h : reading.result = .ok tree) : nodes.findSome? (·.fault? source) = none := by
  refine Option.eq_none_iff_forall_ne_some.mpr fun e he => ?_
  exact nomatch h.symm.trans ((hw.error_iff e).mpr he)

/-- Behind the left side of a split the walk goes on with the right one, unless it has ended. -/
theorem operation (hl : Walked source nodes left) (hr : Walked source nodes' right)
    (op : Operator) : Walked source (nodes ++ nodes') (.operation op left right) := by
  unfold Reading.operation
  rcases hleft : left.result with e | tree
  · have hfirst := (hl.error_iff e).mp hleft
    have hstop : flawless source (nodes ++ nodes') = flawless source nodes := by
      obtain ⟨before, v, after, rfl, hv, hbefore⟩ := List.findSome?_eq_some_iff.mp hfirst
      simp only [flawless, List.append_assoc, List.cons_append]
      rw [List.takeWhile_append_of_pos (by simpa using hbefore),
        List.takeWhile_append_of_pos (by simpa using hbefore)]
      simp [hv]
    exact ⟨fun e' => by simp [List.findSome?_append, hfirst], by rw [hstop]; exact hl.vars⟩
  · have hnone := hl.findSome?_eq_none hleft
    have hall : ∀ v ∈ nodes, (v.fault? source).isNone = true := by
      simpa [List.findSome?_eq_none_iff] using hnone
    have hgo : flawless source (nodes ++ nodes') = flawless source nodes ++
        flawless source nodes' := by
      rw [flawless, flawless, flawless, List.takeWhile_append_of_pos hall,
        List.takeWhile_eq_self_iff.mpr hall]
    refine ⟨fun e => ?_, by rw [hgo, List.filterMap_append, ← hl.vars, ← hr.vars]⟩
    rw [List.findSome?_append, hnone, Option.none_or, ← hr.error_iff]
    rcases right.result with e' | t <;> simp [Except.map]

end Walked

theorem not_isIdentifier_of_isDigits {text : List Char} (h : isDigits text = true) :
    isIdentifier text = false := by
  rcases text with _ | ⟨c, text⟩
  · rfl
  · refine Bool.eq_false_iff.mpr fun hi => ?_
    simp only [isIdentifier, Bool.and_eq_true, Bool.or_eq_true, beq_iff_eq] at hi
    have hc := isDigit_of_isDigits h c List.mem_cons_self
    exact Bool.false_ne_true ((Operand.isDigit_eq_false hi.1).symm.trans hc)

theorem walked_leaf {level : ℕ} (h : level ≤ maxLevels) (text : List Char) :
    Walked source [⟨level, leaf text⟩] (readLeaf text) := by
  unfold readLeaf
  by_cases hd : isDigits text = true
  · rw [if_pos hd]
    exact ⟨by simp [Node.fault?, hd, Nat.not_lt.mpr h],
      by simp [flawless, Node.fault?, Node.name?, hd, Nat.not_lt.mpr h,
        not_isIdentifier_of_isDigits hd]⟩
  rw [if_neg hd]
  by_cases hi : isIdentifier text = true
  · rw [if_pos hi]
    exact ⟨by simp [Node.fault?, hi, Nat.not_lt.mpr h],
      by simp [flawless, Node.fault?, Node.name?, hi, Nat.not_lt.mpr h]⟩
  · rw [if_neg hi]
    exact .fail (by simp [Node.fault?, hd, hi, Nat.not_lt.mpr h])

theorem exists_nodes_eq_cons (p : Plan) (level : ℕ) :
    ∃ rest, p.nodes level = ⟨level, p⟩ :: rest := by
  cases p <;> exact ⟨_, rfl⟩

/-- **A plan is read as the walk over its nodes says.** The levels that are left and the level of
the part add up. -/
theorem walked_reading {p : Plan} {n level : ℕ} (h : level + n = maxLevels + 1) :
    Walked source (p.nodes level) (p.reading source n) := by
  -- on the levels that are left: where there is none, the part itself lies too deep, whatever it is
  induction n generalizing p level with
  | zero =>
    obtain ⟨rest, hnodes⟩ := p.exists_nodes_eq_cons level
    have hlevel : maxLevels < level := by omega
    rw [hnodes]
    exact .fail (if_pos hlevel)
  | succ n ih =>
    have hlevel : ¬ maxLevels < level := by omega
    cases p with
    | blank => exact .fail (by rw [Node.fault?, if_neg hlevel])
    | leaf text => exact walked_leaf (by omega) text
    | paren inner => exact .cons (by rw [Node.fault?, if_neg hlevel]) rfl (ih (by omega))
    | split op left right =>
      exact .cons (by rw [Node.fault?, if_neg hlevel]) rfl
        (.operation (ih (by omega)) (ih (by omega)) op)

end Plan

/-! ### What is read -/

/-- The nodes of a walk before the first one at fault, and the fault of this one. -/
def FirstFault (source : String) (nodes before : List Plan.Node) (e : Error) : Prop :=
  ∃ v after, nodes = before ++ v :: after ∧ (∀ u ∈ before, u.fault? source = none) ∧
    v.fault? source = some e

theorem FirstFault.findSome?_eq {nodes before : List Plan.Node} {e : Error}
    (h : FirstFault source nodes before e) :
    nodes.findSome? (·.fault? source) = some e ∧ Plan.flawless source nodes = before := by
  obtain ⟨v, after, rfl, hbefore, hv⟩ := h
  refine ⟨List.findSome?_eq_some_iff.mpr ⟨before, v, after, rfl, hv, hbefore⟩, ?_⟩
  rw [Plan.flawless, List.takeWhile_append_of_pos (by simpa using hbefore)]
  simp [hv]

/-- **The first fault decides.** Take a source that is balanced and not blank. It has one plan, and
it is refused exactly if a node of the plan is at fault. If the walk over the plan meets a node at
fault, the error is that of the first one, and the variables that have been met are those of the
nodes before it. Otherwise the source is read to a tree, and the variables are those of all
nodes. -/
theorem first_fault_decides {source : String} (hn : ¬ Blank source.toList)
    (hb : Balanced source.toList) :
    ∃ p, (∀ q, IsPlan source.toList q ↔ q = p) ∧
      ((∃ e, (read source).result = .error e) ↔ ∃ v ∈ p.nodes 0, ∃ e, v.fault? source = some e) ∧
      (∀ before e, FirstFault source (p.nodes 0) before e →
        read source = ⟨.error e, before.filterMap Plan.Node.name?⟩) ∧
      ((∀ v ∈ p.nodes 0, v.fault? source = none) →
        ∃ tree, read source = ⟨.ok (some tree), (p.nodes 0).filterMap Plan.Node.name?⟩) := by
  have hw : Plan.Walked source ((plan source.toList).nodes 0)
      ((plan source.toList).reading source (maxLevels + 1)) :=
    Plan.walked_reading (Nat.zero_add _)
  rw [read_of_balanced hn hb]
  generalize (plan source.toList).reading source (maxLevels + 1) = reading at hw
  refine ⟨plan source.toList, fun q => isPlan_iff hb, ?_, ?_, ?_⟩
  · simp only [Reading.map_some_eq_error_iff, hw.error_iff]
    rw [← Option.isSome_iff_exists, List.isSome_findSome?]
    simp [Option.isSome_iff_exists]
  · intro before e hfirst
    obtain ⟨hfault, hbefore⟩ := hfirst.findSome?_eq
    have hresult := (hw.error_iff e).mpr hfault
    simp only [Reading.map, hresult, hw.vars, hbefore]
    rfl
  · intro hnone
    have hfault : ((plan source.toList).nodes 0).findSome? (·.fault? source) = none :=
      List.findSome?_eq_none_iff.mpr hnone
    rcases hresult : reading.result with e | tree
    · exact absurd ((hw.error_iff e).mp hresult) (by simp [hfault])
    · refine ⟨tree, ?_⟩
      have hall : Plan.flawless source ((plan source.toList).nodes 0) =
          (plan source.toList).nodes 0 :=
        List.takeWhile_eq_self_iff.mpr (by simpa using hnone)
      simp only [Reading.map, hresult, hw.vars, hall]
      rfl

/-- The plan of a source with an operand that is none on the left and a missing one on the right. -/
def samplePlan : Plan :=
  .split .add
    (.split .multiply (.leaf ['a']) (.paren (.split .subtract (.leaf ['b']) (.leaf ['2', 'x']))))
    .blank

theorem isPlan_samplePlan : IsPlan "a*(b-2x) + ".toList samplePlan := by
  have ha : plan ['a'] = .leaf ['a'] := plan_of_leaf (by decide) rfl rfl
  have hb : plan ['b'] = .leaf ['b'] := plan_of_leaf (by decide) rfl rfl
  have hx : plan ['2', 'x'] = .leaf ['2', 'x'] := plan_of_leaf (by decide) rfl rfl
  have hinner : plan "b-2x".toList = .split .subtract (plan ['b']) (plan ['2', 'x']) :=
    plan_of_split? rfl rfl
  have hgroup : plan "(b-2x)".toList = .paren (plan "b-2x".toList) := plan_of_inside? rfl
  have hleft : plan "a*(b-2x) ".toList = .split .multiply (plan ['a']) (plan "(b-2x)".toList) :=
    plan_of_split? rfl rfl
  have hwhole : plan "a*(b-2x) + ".toList = .split .add (plan "a*(b-2x) ".toList) (plan []) :=
    plan_of_split? rfl rfl
  have hblank : plan [] = .blank := plan_of_blank rfl
  rw [isPlan_iff (isBalanced_iff.mp rfl), hwhole, hleft, hgroup, hinner, ha, hb, hx, hblank]
  rfl

/-- The leaf `2x` is at fault first, although the operand that is missing lies less deep. -/
theorem invalid_operand_before_missing :
    ¬ Blank "a*(b-2x) + ".toList ∧ Balanced "a*(b-2x) + ".toList ∧
      IsPlan "a*(b-2x) + ".toList samplePlan ∧
      read "a*(b-2x) + " = ⟨.error (.invalidOperand "2x"), ["a", "b"]⟩ := by
  have hn : ¬ Blank "a*(b-2x) + ".toList := fun h => absurd (h 'a' (by decide)) (by decide)
  have hb : Balanced "a*(b-2x) + ".toList := isBalanced_iff.mp rfl
  obtain ⟨p, hp, -, hfirst, -⟩ := first_fault_decides hn hb
  obtain rfl := (hp samplePlan).mp isPlan_samplePlan
  have hbefore : ((samplePlan.nodes 0).take 6).all (fun u => (u.fault? "a*(b-2x) + ").isNone) =
    true := by decide
  refine ⟨hn, hb, isPlan_samplePlan, hfirst ((samplePlan.nodes 0).take 6) _ ⟨⟨4, .leaf ['2', 'x']⟩,
    _, rfl, ?_, rfl⟩⟩
  exact fun u hu => Option.isNone_iff_eq_none.mp (List.all_eq_true.mp hbefore u hu)

end Worksheet.Expr
