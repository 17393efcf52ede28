import Worksheet.Proofs.Naming
import Worksheet.Proofs.Plan

/-! # The grammar of expressions

`Grammar` is the least set of texts that holds digit runs, identifiers, groups in parentheses and
operations of two of its members, with blanks around all of them. It says nothing of how a text is
split, and a member may have many derivations. The texts that are read to a tree are its members
whose plans have few enough levels (`read_accepts_grammar`): wherever an operator of a member stands
outside all parentheses, the texts at its sides are members (`Grammar.split`), so no split is a
wrong one. -/

namespace Worksheet.Expr

open Worksheet.Text

/-! ### Operands -/

/-- The text of an operand and its tree: a nonempty run of digits, or an identifier. -/
inductive Operand : List Char → Expr String → Prop
  | number {digits : List Char} (hn : digits ≠ []) (h : ∀ c ∈ digits, c.isDigit = true) :
    Operand digits (.const (String.ofList digits))
  | name {first : Char} {rest : List Char} (hf : first.isAlpha = true ∨ first = '_')
      (h : ∀ c ∈ rest, c.isAlphanum = true ∨ c = '_') :
    Operand (first :: rest) (.var (String.ofList (first :: rest)))

variable {s l m r p q : List Char} {c : Char} {op : Operator} {tree : Expr String}

theorem toNat_of_isBlank (h : isBlank c = true) : c.toNat ≤ 32 ∨ 133 ≤ c.toNat := by
  simp [isBlank, blankRanges] at h
  omega

theorem toNat_of_isAlphanum (h : c.isAlphanum = true ∨ c = '_') : 48 ≤ c.toNat ∧ c.toNat ≤ 122 := by
  rcases h with h | rfl
  · have ha : (c.isAlpha || c.isDigit) = true := h
    have h0 : '0'.toNat = 48 := rfl
    have h9 : '9'.toNat = 57 := rfl
    rw [Bool.or_eq_true, isAlpha_iff_toNat, Char.isDigit_iff_toNat] at ha
    omega
  · decide

theorem toNat_symbol (op : Operator) : 42 ≤ op.symbol.toNat ∧ op.symbol.toNat ≤ 47 := by
  rcases op <;> decide

theorem depthStep_symbol (op : Operator) : depthStep op.symbol = 0 := by
  rcases op <;> rfl

theorem symbol_injective : Function.Injective Operator.symbol := by
  intro a b h
  rcases a <;> rcases b <;> first | rfl | exact absurd h (by decide)

theorem isBlank_symbol (op : Operator) : isBlank op.symbol = false := by
  rcases op <;> decide

/-- A balanced text is split at the last place where the symbol stands outside all parentheses. -/
theorem lastCut_of_split? (hs : Balanced s) (h : split? s = some (op, l, r)) :
    LastCut s l op.symbol r :=
  (cutAtLast?_eq_some_iff hs (depthStep_symbol op)).mp (split?_eq_some_iff.mp h).1

namespace Operand

theorem toNat_of_mem (h : Operand s tree) : ∀ c ∈ s, 48 ≤ c.toNat ∧ c.toNat ≤ 122 := by
  intro c hc
  rcases h with ⟨-, h⟩ | ⟨hf, h⟩
  · exact toNat_of_isAlphanum (Or.inl (by simp [Char.isAlphanum, h c hc]))
  · rcases List.mem_cons.mp hc with rfl | hc
    · exact toNat_of_isAlphanum (hf.imp_left fun hf => by simp [Char.isAlphanum, hf])
    · exact toNat_of_isAlphanum (h c hc)

theorem ne_nil (h : Operand s tree) : s ≠ [] := by
  rcases h with ⟨hn, -⟩ | ⟨-, -⟩
  · exact hn
  · simp

theorem isBlank_of_mem (h : Operand s tree) : ∀ c ∈ s, isBlank c = false := by
  intro c hc
  refine Bool.eq_false_iff.mpr fun hb => ?_
  have := h.toNat_of_mem c hc
  have := toNat_of_isBlank hb
  omega

/-- The signs, which come before the digits, stand in no operand. -/
theorem not_mem (h : Operand s tree) (hc : c.toNat < 48) : c ∉ s := by
  intro hm
  have := h.toNat_of_mem c hm
  omega

theorem symbol_not_mem (h : Operand s tree) (op : Operator) : op.symbol ∉ s := by
  have := toNat_symbol op
  exact h.not_mem (by omega)

theorem open_not_mem (h : Operand s tree) : '(' ∉ s := h.not_mem (by decide)

theorem balanced (h : Operand s tree) : Balanced s := by
  refine balanced_of_depthStep fun c hc => depthStep_eq_zero ?_ ?_
  · rintro rfl
    exact h.open_not_mem hc
  · rintro rfl
    exact h.not_mem (by decide) hc

theorem trim_eq (hp : Blank p) (h : Operand s tree) (hq : Blank q) : trim (p ++ s ++ q) = s := by
  rw [trim_pad hp hq, trim_eq_self_of_forall h.isBlank_of_mem]

theorem inside?_eq_none (h : Operand s tree) : inside? s = none := by
  refine Option.eq_none_iff_forall_ne_some.mpr fun t ht => ?_
  have := eq_wrapped_of_inside? ht
  exact h.open_not_mem (this ▸ List.mem_cons_self)

theorem cutAtLast?_eq_none (h : Operand s tree) (op : Operator) :
    cutAtLast? op.symbol s = none := by
  refine Option.eq_none_iff_forall_ne_some.mpr fun p hp => ?_
  obtain ⟨l, r⟩ := p
  have := eq_append_of_cutAtLast? hp
  exact h.symbol_not_mem op (by simp [this])

theorem isDigit_eq_false (h : c.isAlpha = true ∨ c = '_') : c.isDigit = false := by
  refine Bool.eq_false_iff.mpr fun hd => ?_
  rcases h with h | rfl
  · exact absurd ((not_isAlpha_of_isDigit hd).symm.trans h) (by decide)
  · exact absurd hd (by decide)

end Operand

/-- **The leaves that are read are the operands.** -/
theorem readLeaf_eq_ok_iff : (readLeaf s).result = .ok tree ↔ Operand s tree := by
  unfold readLeaf
  constructor
  · intro h
    split at h
    · next hd =>
      obtain rfl := Except.ok.inj h
      refine .number ?_ (isDigit_of_isDigits hd)
      rintro rfl
      exact absurd hd (by decide)
    split at h
    · next hi =>
      obtain rfl := Except.ok.inj h
      rcases s with _ | ⟨c, s⟩
      · exact absurd hi (by decide)
      · simp only [isIdentifier, Bool.and_eq_true, Bool.or_eq_true, beq_iff_eq,
          List.all_eq_true] at hi
        exact .name hi.1 hi.2
    · exact absurd h (by simp [Reading.fail])
  · rintro (⟨hn, h⟩ | @⟨c, s, hf, h⟩)
    · rw [if_pos (by simpa [isDigits, hn] using h)]
    · have hd : isDigits (c :: s) = false := by simp [isDigits, Operand.isDigit_eq_false hf]
      have hi : isIdentifier (c :: s) = true := by simpa [isIdentifier] using ⟨hf, h⟩
      rw [hd, hi]
      rfl

theorem tree?_leaf : (Plan.leaf s).tree? = some tree ↔ Operand s tree := by
  rw [← readLeaf_eq_ok_iff, Plan.tree?]
  rcases (readLeaf s).result with e | t <;> simp [Except.toOption]

/-! ### Places of operators -/

/-- A place in a text with blanks around it is a place in the text itself. -/
theorem Cuts.of_pad (hp : Blank p) (hq : Blank q) (hc : isBlank c = false)
    (h : Cuts (p ++ m ++ q) l c r) : ∃ l' r', l = p ++ l' ∧ r = r' ++ q ∧ Cuts m l' c r' := by
  have hcp : c ∉ p := fun hm => absurd (hc.symm.trans (hp c hm)) (by decide)
  have hcq : c ∉ q := fun hm => absurd (hc.symm.trans (hq c hm)) (by decide)
  have heq : p ++ (m ++ q) = l ++ c :: r := by rw [← List.append_assoc]; exact h.eq
  obtain ⟨l', rfl, hl'⟩ := exists_place_of_not_mem_left heq hcp
  obtain ⟨r', rfl, rfl⟩ := exists_place_of_not_mem_right hl' hcq
  have hl : Balanced l' := (closes_append_iff (balanced_of_blank hp)).mp h.left
  have hr : Balanced r' := by
    have := balanced_pad_iff (m := r') blank_nil hq
    exact this.mp h.right
  exact ⟨l', r', rfl, rfl, rfl, hl, hr⟩

/-- No place in a pair of parentheses is outside of it. -/
theorem not_cuts_wrap (hm : Balanced m) (hc : depthStep c = 0) :
    ¬ Cuts ('(' :: (m ++ [')'])) l c r := by
  rintro ⟨heq, hl, -⟩
  rcases l with _ | ⟨d, l⟩
  · obtain ⟨rfl, -⟩ := List.cons.inj heq
    exact absurd hc (by decide)
  obtain ⟨rfl, htail⟩ := List.cons.inj heq
  rcases append_cons_eq htail with ⟨-, rfl, -⟩ | ⟨x, -, hx⟩ | ⟨x, hx, -⟩
  · exact absurd hc (by decide)
  · exact absurd hx (by simp)
  · have hpos := (balanced_iff.mp hm).2 l (hx ▸ List.prefix_append l _)
    have := hl.surplus_eq
    rw [surplus_cons, depthStep_open] at this
    omega

theorem not_cuts_operand (hp : Blank p) (h : Operand m tree) (hq : Blank q) :
    ¬ Cuts (p ++ m ++ q) l op.symbol r := by
  intro hc
  obtain ⟨l', r', -, -, hc⟩ := hc.of_pad hp hq (isBlank_symbol op)
  exact h.symbol_not_mem op (by simp [hc.eq])

theorem not_cuts_group (hp : Blank p) (h : Balanced m) (hq : Blank q) :
    ¬ Cuts (p ++ '(' :: (m ++ [')']) ++ q) l op.symbol r := by
  intro hc
  obtain ⟨l', r', -, -, hc⟩ := hc.of_pad hp hq (isBlank_symbol op)
  exact not_cuts_wrap h (depthStep_symbol op) hc

/-- A place in an operation is that of its operator, or a place in one of its sides. -/
theorem Cuts.of_operation {a : Operator} {left right : List Char} (hl : Balanced left)
    (hr : Balanced right)
    (h : Cuts (left ++ a.symbol :: right) l op.symbol r) :
    (l = left ∧ op.symbol = a.symbol ∧ r = right) ∨
      (∃ m, Cuts left l op.symbol m ∧ r = m ++ a.symbol :: right) ∨
      ∃ m, Cuts right m op.symbol r ∧ l = left ++ a.symbol :: m := by
  rcases append_cons_eq h.eq with ⟨rfl, ha, rfl⟩ | ⟨m, rfl, rfl⟩ | ⟨m, rfl, rfl⟩
  · exact Or.inl ⟨rfl, ha.symm, rfl⟩
  · refine Or.inr (Or.inr ⟨m, ⟨rfl, ?_, h.right⟩, rfl⟩)
    have := (closes_append_iff hl).mp h.left
    exact (balanced_cons_iff (depthStep_symbol a)).mp this
  · refine Or.inr (Or.inl ⟨m, ⟨rfl, h.left, ?_⟩, rfl⟩)
    have := (closes_append_iff h.left).mp hl
    exact (balanced_cons_iff (depthStep_symbol op)).mp this

/-! ### The grammar -/

theorem pad_pad (p l m r q : List Char) :
    p ++ (l ++ m ++ r) ++ q = (p ++ l) ++ m ++ (r ++ q) := by simp

theorem pad_operation (p l r q : List Char) (c : Char) :
    p ++ (l ++ c :: r) ++ q = (p ++ l ++ []) ++ c :: ([] ++ r ++ q) := by simp

/-- The texts of expressions. -/
inductive Grammar : List Char → Prop
  | operand {l s r : List Char} {tree : Expr String} (hl : Blank l) (h : Operand s tree)
      (hr : Blank r) : Grammar (l ++ s ++ r)
  | group {l s r : List Char} (hl : Blank l) (h : Grammar s) (hr : Blank r) :
    Grammar (l ++ '(' :: (s ++ [')']) ++ r)
  | operation (op : Operator) {left right : List Char} (hl : Grammar left) (hr : Grammar right) :
    Grammar (left ++ op.symbol :: right)

namespace Grammar

theorem balanced (h : Grammar s) : Balanced s := by
  induction h with
  | operand hl h hr => exact (balanced_pad_iff hl hr).mpr h.balanced
  | group hl _ hr ih => exact (balanced_pad_iff hl hr).mpr ih.wrap
  | operation op _ _ hl hr => exact hl.append ((balanced_cons_iff (depthStep_symbol op)).mpr hr)

theorem pad (h : Grammar s) (hp : Blank p) (hq : Blank q) : Grammar (p ++ s ++ q) := by
  induction h generalizing p q with
  | operand hl h hr =>
    rw [pad_pad]
    exact operand (Blank.append hp hl) h (Blank.append hr hq)
  | group hl h hr =>
    rw [pad_pad]
    exact group (Blank.append hp hl) h (Blank.append hr hq)
  | operation op _ _ hl hr =>
    rw [pad_operation]
    exact operation op (hl hp blank_nil) (hr blank_nil hq)

theorem of_trim (h : Grammar (trim s)) : Grammar s := by
  obtain ⟨p, q, hs, hp, hq⟩ := exists_eq_append_trim s
  rw [hs]
  exact h.pad hp hq

/-- **Every operator of a member that stands outside all parentheses has members at its sides.** -/
theorem split (h : Grammar s) (hc : Cuts s l op.symbol r) : Grammar l ∧ Grammar r := by
  induction h generalizing l r with
  | operand hl h hr => exact absurd hc (not_cuts_operand hl h hr)
  | group hl h hr => exact absurd hc (not_cuts_group hl h.balanced hr)
  | operation a hleft hright ihl ihr =>
    rcases hc.of_operation hleft.balanced hright.balanced
      with ⟨rfl, -, rfl⟩ | ⟨m, hm, rfl⟩ | ⟨m, hm, rfl⟩
    · exact ⟨hleft, hright⟩
    · exact ⟨(ihl hm).1, operation a (ihl hm).2 hright⟩
    · exact ⟨operation a hleft (ihr hm).1, (ihr hm).2⟩

/-! ### Plans and the grammar -/

/-- A text whose plan has a tree is a member. -/
theorem of_tree? (h : (plan s).tree? = some tree) : Grammar s := by
  fun_induction plan s generalizing tree with
  | case1 => exact absurd h (by simp [Plan.tree?])
  | case2 s _ inner hi ih =>
    refine of_trim ?_
    rw [eq_wrapped_of_inside? hi]
    simpa using group blank_nil (ih h) blank_nil
  | case3 s _ _ op left right hs ihl ihr =>
    obtain ⟨l, r, hl, hr, rfl⟩ := Plan.tree?_split.mp h
    refine of_trim ?_
    rw [eq_append_of_cutAtLast? (split?_eq_some_iff.mp hs).1]
    exact operation op (ihl hl) (ihr hr)
  | case4 s _ _ _ =>
    refine of_trim ?_
    simpa using operand blank_nil (tree?_leaf.mp h) blank_nil

end Grammar

theorem plan_operand (hp : Blank p) (h : Operand m tree) (hq : Blank q) :
    plan (p ++ m ++ q) = .leaf m := by
  have ht : trim (p ++ m ++ q) = m := h.trim_eq hp hq
  have := plan_of_leaf (s := p ++ m ++ q) (by rw [ht]; exact h.ne_nil)
    (by rw [ht]; exact h.inside?_eq_none)
    (by rw [ht]; exact split?_eq_none_iff.mpr h.cutAtLast?_eq_none)
  rwa [ht] at this

theorem trim_group (hp : Blank p) (hq : Blank q) :
    trim (p ++ '(' :: (m ++ [')']) ++ q) = '(' :: (m ++ [')']) := by
  have ho : isBlank '(' = false := by decide
  have hc : isBlank ')' = false := by decide
  rw [trim_pad hp hq, trim_eq_self (by simpa using ho) (by simpa [List.getLast?_cons] using hc)]

theorem plan_group (hp : Blank p) (h : Balanced m) (hq : Blank q) :
    plan (p ++ '(' :: (m ++ [')']) ++ q) = .paren (plan m) := by
  refine plan_of_inside? ?_
  rw [trim_group hp hq]
  exact inside?_eq_some_iff.mpr ⟨rfl, h⟩

/-- The plan of a text with an operator outside all parentheses is a split at such an operator. -/
theorem exists_plan_split (hs : Balanced s) (h : Cuts s l op.symbol r) :
    ∃ a l' r', plan s = .split a (plan l') (plan r') ∧ Cuts s l' (Operator.symbol a) r' := by
  obtain ⟨p, q, heq, hp, hq⟩ := exists_eq_append_trim s
  obtain ⟨x, y, -, -, hxy⟩ := Cuts.of_pad hp hq (isBlank_symbol op) (heq ▸ h)
  have hi : inside? (trim s) = none := by
    refine Option.eq_none_iff_forall_ne_some.mpr fun t ht => ?_
    obtain ⟨hw, ht⟩ := inside?_eq_some_iff.mp ht
    exact not_cuts_wrap ht (depthStep_symbol op) (hw ▸ hxy)
  rcases hsplit : split? (trim s) with _ | ⟨a, l', r'⟩
  · exact absurd hxy (not_cuts_of_cutAtLast? (split?_eq_none_iff.mp hsplit op))
  · have hcut := lastCut_of_split? (balanced_trim_iff.mpr hs) hsplit
    have hl : plan (p ++ l') = plan l' := plan_eq_of_trim_eq (by simpa using trim_pad hp blank_nil)
    have hr : plan (r' ++ q) = plan r' := plan_eq_of_trim_eq (by simpa using trim_pad blank_nil hq)
    refine ⟨a, p ++ l', r' ++ q, ?_, ?_, ?_, ?_⟩
    · rw [plan_of_split? hi hsplit, hl, hr]
    · conv_lhs => rw [heq, hcut.eq]
      simp
    · exact (balanced_of_blank hp).append hcut.left
    · exact hcut.right.append (balanced_of_blank hq)

/-- The plan of a member has a tree. -/
theorem Grammar.exists_tree (h : Grammar s) : ∃ tree, (plan s).tree? = some tree := by
  induction hn : s.length using Nat.strongRecOn generalizing s with
  | ind n ih =>
    rcases h with @⟨p, m, q, tree, hp, h, hq⟩ | @⟨p, m, q, hp, h, hq⟩ | @⟨op, left, right, hl, hr⟩
    · rw [plan_operand hp h hq]
      exact ⟨tree, tree?_leaf.mpr h⟩
    · rw [plan_group hp h.balanced hq]
      exact ih m.length (by simp at hn; omega) h rfl
    · have hg : Grammar (left ++ op.symbol :: right) := operation op hl hr
      obtain ⟨a, l, r, hplan, hc⟩ := exists_plan_split hg.balanced ⟨rfl, hl.balanced, hr.balanced⟩
      obtain ⟨hgl, hgr⟩ := hg.split hc
      have hlen := congrArg List.length hc.eq
      simp only [List.length_append, List.length_cons] at hlen hn
      obtain ⟨tl, htl⟩ := ih l.length (by omega) hgl rfl
      obtain ⟨tr, htr⟩ := ih r.length (by omega) hgr rfl
      rw [hplan]
      exact ⟨_, Plan.tree?_split.mpr ⟨tl, tr, htl, htr, rfl⟩⟩

/-! ### What is read -/

variable {source : String}

theorem not_balanced_iff :
    ¬ Balanced s ↔ (∃ p, p <+: s ∧ p.count '(' < p.count ')') ∨ s.count '(' ≠ s.count ')' := by
  rw [balanced_iff, not_and_or]
  simp only [surplus, not_forall, not_le]
  constructor
  · rintro (h | ⟨p, hp, h⟩)
    · exact Or.inr (by omega)
    · exact Or.inl ⟨p, hp, by omega⟩
  · rintro (⟨p, hp, h⟩ | h)
    · exact Or.inr ⟨p, hp, by omega⟩
    · exact Or.inl (by omega)

theorem Reading.map_some_eq_ok_iff {α : Type} {reading : Reading α} {a : α} :
    (reading.map some).result = .ok (some a) ↔ reading.result = .ok a := by
  rcases reading with ⟨_ | _, _⟩ <;> simp [Reading.map, Except.map]

theorem Reading.map_some_eq_error_iff {α : Type} {reading : Reading α} {e : Error} :
    (reading.map some).result = .error e ↔ reading.result = .error e := by
  rcases reading with ⟨_ | _, _⟩ <;> simp [Reading.map, Except.map]

/-- A source is read to the tree of its plan, if the levels of the plan are not too many. -/
theorem read_eq_ok_some_iff : (read source).result = .ok (some tree) ↔
    (plan source.toList).tree? = some tree ∧ (plan source.toList).levels ≤ maxLevels := by
  by_cases hn : Blank source.toList
  · rw [read_of_blank hn, plan_of_blank (trim_eq_nil_iff.mpr hn)]
    simp [Plan.tree?]
  by_cases hb : Balanced source.toList
  · rw [read_of_balanced hn hb, Reading.map_some_eq_ok_iff, Plan.result_eq_ok_iff, Nat.lt_succ_iff]
  · rw [read_of_not_balanced hn hb]
    constructor
    · intro h
      exact absurd h (by simp)
    · rintro ⟨h, -⟩
      exact absurd (Grammar.of_tree? h).balanced hb

theorem read_eq_ok_none_iff : (read source).result = .ok none ↔ Blank source.toList := by
  refine ⟨fun h => ?_, read_of_blank⟩
  by_contra hn
  by_cases hb : Balanced source.toList
  · rw [read_of_balanced hn hb] at h
    rcases hr : (plan source.toList).reading source (maxLevels + 1) with ⟨_ | _, _⟩
    · simp [hr, Reading.map, Except.map] at h
    · simp [hr, Reading.map, Except.map] at h
  · rw [read_of_not_balanced hn hb] at h
    exact absurd h (by simp)

/-- An error of a balanced source is that of the levels, or it has no tree for want of an
operand. -/
theorem read_error_cases {e : Error} (hb : Balanced source.toList)
    (h : (read source).result = .error e) :
    e = .tooDeep maxLevels ∨
      ¬ Grammar source.toList ∧
        (e = .missingOperand source ∨ ∃ leaf, e = .invalidOperand leaf) := by
  have hn : ¬ Blank source.toList := fun hn => absurd ((read_of_blank hn).symm.trans h) (by simp)
  rw [read_of_balanced hn hb, Reading.map_some_eq_error_iff] at h
  rcases Plan.error_cases h with h | ⟨hnone, h⟩
  · exact Or.inl h
  · refine Or.inr ⟨fun hg => ?_, h⟩
    obtain ⟨tree, ht⟩ := hg.exists_tree
    exact absurd (hnone.symm.trans ht) (by simp)

theorem read_eq_error_unbalanced_iff {text : String} :
    (read source).result = .error (.unbalanced text) ↔
    text = String.ofList (trim source.toList) ∧ ¬ Balanced source.toList := by
  constructor
  · intro h
    have hn : ¬ Blank source.toList := fun hn => absurd ((read_of_blank hn).symm.trans h) (by simp)
    have hb : ¬ Balanced source.toList := by
      intro hb
      rcases read_error_cases hb h with h | ⟨-, h | ⟨_, h⟩⟩ <;> exact absurd h (by simp)
    rw [read_of_not_balanced hn hb] at h
    obtain rfl := Error.unbalanced.inj (Except.error.inj h)
    exact ⟨rfl, hb⟩
  · rintro ⟨rfl, hb⟩
    exact read_of_not_balanced (fun hn => hb (balanced_of_blank hn)) hb

/-- **The texts that are read are those of the grammar**, up to the number of levels. A blank source
has no expression; one whose parentheses do not match is refused for them, with its trimmed text;
one of the grammar is read unless its levels are too many; and any other is refused for an operand
that is missing or is none, or for its levels. -/
theorem read_accepts_grammar (source : String) :
    ((read source).result = .ok none ↔ Blank source.toList) ∧
    (∀ text, (read source).result = .error (.unbalanced text) ↔
      text = String.ofList (trim source.toList) ∧
      ((∃ p, p <+: source.toList ∧ p.count '(' < p.count ')') ∨
        source.toList.count '(' ≠ source.toList.count ')')) ∧
    ((∃ tree, (read source).result = .ok (some tree)) ↔
      Grammar source.toList ∧ (plan source.toList).levels ≤ 256) ∧
    (Grammar source.toList → ∀ e, (read source).result = .error e → e = .tooDeep 256) ∧
    (¬ Blank source.toList → Balanced source.toList → ¬ Grammar source.toList →
      ∃ e, (read source).result = .error e ∧
        (e = .missingOperand source ∨ (∃ leaf, e = .invalidOperand leaf) ∨ e = .tooDeep 256)) := by
  refine ⟨read_eq_ok_none_iff, ?_, ?_, ?_, ?_⟩
  · intro text
    rw [read_eq_error_unbalanced_iff, not_balanced_iff]
  · constructor
    · rintro ⟨tree, h⟩
      obtain ⟨ht, hlevels⟩ := read_eq_ok_some_iff.mp h
      exact ⟨Grammar.of_tree? ht, hlevels⟩
    · rintro ⟨hg, hlevels⟩
      obtain ⟨tree, ht⟩ := hg.exists_tree
      exact ⟨tree, read_eq_ok_some_iff.mpr ⟨ht, hlevels⟩⟩
  · intro hg e h
    rcases read_error_cases hg.balanced h with h | ⟨hn, -⟩
    · exact h
    · exact absurd hg hn
  · intro hn hb hg
    rcases h : (read source).result with e | none | tree
    · refine ⟨e, rfl, ?_⟩
      rcases read_error_cases hb h with h | ⟨-, h | h⟩
      · exact Or.inr (Or.inr h)
      · exact Or.inl h
      · exact Or.inr (Or.inl h)
    · exact absurd (read_eq_ok_none_iff.mp h) hn
    · exact absurd (Grammar.of_tree? (read_eq_ok_some_iff.mp h).1) hg

end Worksheet.Expr
