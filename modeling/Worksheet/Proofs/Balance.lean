import Mathlib.Data.List.Infix
import Worksheet.Expr.Parentheses

/-! # Balanced texts

The three scans of a text say what they should of its parentheses. A text closes `depth` open
parentheses when it has `depth` closing ones more than opening ones and no prefix has more than that
(`Closes`), and it is balanced when it closes none. `isBalanced` decides this (`isBalanced_iff`),
`inside?` finds the balanced inside of a pair that wraps the text (`inside?_eq_some_iff`), and on a
balanced text `cutAtLast?` finds the last place where the symbol stands between two balanced texts
(`LastCut`, `cutAtLast?_eq_some_iff`): the depth counted from the right end is the one counted from
the left. -/

namespace Worksheet.Expr

/-! ### The surplus of opening parentheses -/

/-- The number of opening parentheses less that of the closing ones. -/
def surplus (s : List Char) : ℤ := (s.count '(' : ℤ) - s.count ')'

@[simp] theorem depthStep_open : depthStep '(' = 1 := rfl

@[simp] theorem depthStep_close : depthStep ')' = -1 := rfl

theorem depthStep_eq_zero {c : Char} (h : c ≠ '(') (h' : c ≠ ')') : depthStep c = 0 := by
  unfold depthStep
  split <;> trivial

@[simp] theorem surplus_nil : surplus [] = 0 := rfl

@[simp] theorem surplus_cons (c : Char) (s : List Char) :
    surplus (c :: s) = depthStep c + surplus s := by
  unfold surplus depthStep
  split
  · simp; omega
  · simp; omega
  · next h h' =>
    rw [List.count_cons_of_ne h, List.count_cons_of_ne h']
    omega

@[simp] theorem surplus_append (l r : List Char) : surplus (l ++ r) = surplus l + surplus r := by
  induction l with
  | nil => simp
  | cons c l ih => simp only [List.cons_append, surplus_cons, ih]; omega

/-- The text closes `depth` open parentheses and its own: none is closed that is not open, and none
is left. -/
def Closes (depth : ℤ) (s : List Char) : Prop :=
  depth + surplus s = 0 ∧ ∀ p, p <+: s → 0 ≤ depth + surplus p

/-- The parentheses of the text close each other. -/
def Balanced (s : List Char) : Prop := Closes 0 s

variable {depth : ℤ} {c : Char} {s t l r : List Char}

theorem Closes.nonneg (h : Closes depth s) : 0 ≤ depth := by
  simpa using h.2 [] List.nil_prefix

theorem closes_nil_iff : Closes depth [] ↔ depth = 0 := by
  constructor
  · intro h
    simpa using h.1
  · rintro rfl
    exact ⟨rfl, fun p hp => by simp [List.prefix_nil.mp hp]⟩

theorem closes_cons_iff : Closes depth (c :: s) ↔ 0 ≤ depth ∧ Closes (depth + depthStep c) s := by
  constructor
  · intro h
    refine ⟨h.nonneg, ?_, ?_⟩
    · have := h.1
      rw [surplus_cons] at this
      omega
    · intro p hp
      have := h.2 (c :: p) ((List.prefix_cons_inj c).mpr hp)
      rw [surplus_cons] at this
      omega
  · rintro ⟨h0, h, hp⟩
    refine ⟨by rw [surplus_cons]; omega, ?_⟩
    intro p hpre
    rcases List.prefix_cons_iff.mp hpre with rfl | ⟨q, rfl, hq⟩
    · simpa using h0
    · have := hp q hq
      rw [surplus_cons]
      omega

/-- A balanced text in front changes nothing. -/
theorem closes_append_iff (hl : Balanced l) : Closes depth (l ++ r) ↔ Closes depth r := by
  have hs : surplus l = 0 := by simpa using hl.1
  constructor
  · rintro ⟨h, hp⟩
    refine ⟨by rw [surplus_append] at h; omega, ?_⟩
    intro p hpre
    have := hp (l ++ p) ((List.prefix_append_right_inj l).mpr hpre)
    rw [surplus_append] at this
    omega
  · intro h
    refine ⟨by rw [surplus_append, hs]; simpa using h.1, ?_⟩
    rintro p ⟨q, hq⟩
    rcases List.append_eq_append_iff.mp hq with ⟨m, rfl, -⟩ | ⟨m, rfl, rfl⟩
    · have := hl.2 p (List.prefix_append p m)
      have := h.nonneg
      omega
    · have := h.2 m (List.prefix_append m q)
      rw [surplus_append]
      omega

/-! ### Balanced texts -/

theorem balanced_iff : Balanced s ↔ surplus s = 0 ∧ ∀ p, p <+: s → 0 ≤ surplus p := by
  simp [Balanced, Closes]

theorem balanced_nil : Balanced [] := closes_nil_iff.mpr rfl

theorem Balanced.surplus_eq (h : Balanced s) : surplus s = 0 := (balanced_iff.mp h).1

theorem balanced_cons_iff (hc : depthStep c = 0) : Balanced (c :: s) ↔ Balanced s := by
  unfold Balanced
  rw [closes_cons_iff, hc]
  simp

theorem Balanced.append (hl : Balanced l) (hr : Balanced r) : Balanced (l ++ r) :=
  (closes_append_iff hl).mpr hr

theorem balanced_of_depthStep (h : ∀ c ∈ s, depthStep c = 0) : Balanced s := by
  induction s with
  | nil => exact balanced_nil
  | cons c s ih =>
    rw [balanced_cons_iff (h c List.mem_cons_self)]
    exact ih fun d hd => h d (List.mem_cons_of_mem c hd)

theorem Balanced.wrap (h : Balanced s) : Balanced ('(' :: (s ++ [')'])) := by
  refine closes_cons_iff.mpr ⟨Int.le_refl 0, ?_⟩
  rw [closes_append_iff h]
  exact closes_cons_iff.mpr ⟨by decide, closes_nil_iff.mpr rfl⟩

/-- A prefix of a balanced text with as many opening as closing parentheses is balanced, and so is
the rest. -/
theorem Balanced.of_append (h : Balanced (l ++ r)) (hl : surplus l = 0) :
    Balanced l ∧ Balanced r := by
  have hbl : Balanced l := by
    refine balanced_iff.mpr ⟨hl, ?_⟩
    intro p hp
    exact (balanced_iff.mp h).2 p (hp.trans (List.prefix_append l r))
  exact ⟨hbl, (closes_append_iff hbl).mp h⟩

/-! ### Balance and the inside of a pair -/

theorem closes_iff {n : ℕ} : closes n s = true ↔ Closes n s := by
  fun_induction closes n s with
  | case1 n => simp [closes_nil_iff]
  | case2 n s ih => rw [ih, closes_cons_iff]; simp
  | case3 s =>
    rw [closes_cons_iff]
    simp only [depthStep_close, Bool.false_eq_true, false_iff, not_and]
    intro _ h
    have := h.nonneg
    omega
  | case4 n s ih =>
    have hn : ((n + 1 : ℕ) : ℤ) + depthStep ')' = n := by rw [depthStep_close]; omega
    rw [ih, closes_cons_iff, hn]
    simp; omega
  | case5 n c s ho hz hs ih =>
    have hc : c ≠ ')' := by
      rintro rfl
      rcases n with _ | n
      · exact hz rfl rfl
      · exact hs n rfl rfl
    rw [ih, closes_cons_iff, depthStep_eq_zero ho hc]
    simp

/-- **The check decides balance.** -/
theorem isBalanced_iff : isBalanced s = true ↔ Balanced s := closes_iff

theorem beforeClose?_cons {n : ℕ} (ho : c ≠ '(') (hc : c ≠ ')') :
    beforeClose? n (c :: s) = (beforeClose? n s).map (c :: ·) := by
  rw [beforeClose?]
  · exact ho
  · exact fun _ h _ => hc h
  · exact fun _ h => hc h
  · exact fun _ _ h => hc h

theorem beforeClose?_iff {n : ℕ} : beforeClose? n (t ++ [')']) = some t ↔ Closes n t := by
  induction t generalizing n with
  | nil =>
    rcases n with _ | n
    · simp [beforeClose?, closes_nil_iff]
    · simp [beforeClose?, closes_nil_iff]; omega
  | cons c t ih =>
    rw [closes_cons_iff]
    by_cases ho : c = '('
    · subst ho
      simp [beforeClose?, ih]
    by_cases hc : c = ')'
    · subst hc
      rcases n with _ | n
      · have hf : ¬ Closes (-1) t := fun h => by have := h.nonneg; omega
        simp [beforeClose?, hf]
      · have hn : ((n : ℤ) + 1) + -1 = n := by omega
        have hp : (0 : ℤ) ≤ n + 1 := by omega
        simp [beforeClose?, ih, hn, hp]
    · simp [beforeClose?_cons ho hc, depthStep_eq_zero ho hc, ih]

/-- **The inside of a pair is found exactly when the pair wraps the whole text.** -/
theorem inside?_eq_some_iff : inside? s = some t ↔ s = '(' :: (t ++ [')']) ∧ Balanced t := by
  constructor
  · intro h
    obtain rfl := eq_wrapped_of_inside? h
    exact ⟨rfl, beforeClose?_iff.mp h⟩
  · rintro ⟨rfl, h⟩
    exact beforeClose?_iff.mpr h

/-! ### Places in a text -/

/-- Two places in one text are the same, or one of them comes first. -/
theorem append_cons_eq {a b : Char} {l' r' : List Char} (h : l ++ a :: r = l' ++ b :: r') :
    (l = l' ∧ a = b ∧ r = r') ∨ (∃ m, l' = l ++ a :: m ∧ r = m ++ b :: r') ∨
      ∃ m, l = l' ++ b :: m ∧ r' = m ++ a :: r := by
  rcases List.append_eq_append_iff.mp h with ⟨m, hl, hr⟩ | ⟨m, hl, hr⟩
  · rcases List.cons_eq_append_iff.mp hr with ⟨rfl, hb⟩ | ⟨m', rfl, hr'⟩
    · obtain ⟨rfl, rfl⟩ := List.cons.inj hb
      exact Or.inl ⟨by simpa using hl.symm, rfl, rfl⟩
    · exact Or.inr (Or.inl ⟨m', hl, hr'⟩)
  · rcases List.cons_eq_append_iff.mp hr with ⟨rfl, hb⟩ | ⟨m', rfl, hr'⟩
    · obtain ⟨rfl, rfl⟩ := List.cons.inj hb
      exact Or.inl ⟨by simpa using hl, rfl, rfl⟩
    · exact Or.inr (Or.inr ⟨m', hl, hr'⟩)

theorem exists_place_of_not_mem_left (h : l ++ s = t ++ c :: r) (hc : c ∉ l) :
    ∃ t', t = l ++ t' ∧ s = t' ++ c :: r := by
  rcases List.append_eq_append_iff.mp h with ⟨t', ht, hs⟩ | ⟨x, hl, hs⟩
  · exact ⟨t', ht, hs⟩
  · rcases x with _ | ⟨d, x⟩
    · exact ⟨[], by simpa using hl.symm, hs.symm⟩
    · obtain ⟨rfl, -⟩ := List.cons.inj hs
      exact absurd (by simp [hl]) hc

theorem exists_place_of_not_mem_right (h : s ++ r = l ++ c :: t) (hc : c ∉ r) :
    ∃ t', t = t' ++ r ∧ s = l ++ c :: t' := by
  rcases List.append_eq_append_iff.mp h with ⟨x, -, hr⟩ | ⟨x, hs, hr⟩
  · exact absurd (by simp [hr]) hc
  · rcases x with _ | ⟨d, x⟩
    · have hr' : c :: t = r := hr
      exact absurd (hr' ▸ List.mem_cons_self) hc
    · obtain ⟨rfl, rfl⟩ := List.cons.inj hr
      exact ⟨x, rfl, hs⟩

/-! ### Places outside all parentheses -/

/-- The symbol stands between two balanced texts. -/
structure Cuts (s l : List Char) (symbol : Char) (r : List Char) : Prop where
  eq : s = l ++ symbol :: r
  left : Balanced l
  right : Balanced r

theorem Balanced.cuts {symbol : Char} (h : Balanced (l ++ symbol :: r)) (hc : depthStep symbol = 0)
    (hr : surplus r = 0) : Cuts (l ++ symbol :: r) l symbol r := by
  have hl : surplus l = 0 := by
    have := h.surplus_eq
    rw [surplus_append, surplus_cons] at this
    omega
  obtain ⟨hbl, hbr⟩ := h.of_append hl
  exact ⟨rfl, hbl, (balanced_cons_iff hc).mp hbr⟩

/-- What has been read from the right holds no place of the symbol with as many opening as closing
parentheses behind it. -/
def Clear (symbol : Char) (s : List Char) : Prop := ∀ l r, s = l ++ symbol :: r → surplus r ≠ 0

theorem Clear.cons {symbol : Char} (h : Clear symbol s) (hc : ¬ (c = symbol ∧ surplus s = 0)) :
    Clear symbol (c :: s) := by
  intro l r hs
  rcases l with _ | ⟨d, l⟩
  · obtain ⟨rfl, rfl⟩ := List.cons.inj hs
    exact fun h0 => hc ⟨rfl, h0⟩
  · exact h l r (List.cons.inj hs).2

theorem clear_of_cutFromRight? {symbol : Char} {left right : List Char} (h : Clear symbol right) :
    (∀ l r, cutFromRight? symbol (surplus right) left right = some (l, r) → surplus r = 0 ∧
      Clear symbol r) ∧
    (cutFromRight? symbol (surplus right) left right = none →
      Clear symbol (left.reverse ++ right)) := by
  induction left generalizing right with
  | nil => simpa [cutFromRight?] using h
  | cons c left ih =>
    unfold cutFromRight?
    split
    · next hc =>
      refine ⟨?_, by simp⟩
      rintro l r ⟨⟩
      exact ⟨hc.2, h⟩
    · next hc =>
      have := ih (h.cons hc)
      rw [surplus_cons, Int.add_comm] at this
      simpa using this

theorem clear_nil (symbol : Char) : Clear symbol [] := by
  intro l r h
  simp at h

theorem not_cuts_of_clear {symbol : Char} (h : Clear symbol s) : ¬ Cuts s l symbol r :=
  fun hc => h l r hc.eq hc.right.surplus_eq

theorem cuts_of_cutAtLast? {symbol : Char} (hs : Balanced s) (hc : depthStep symbol = 0)
    (h : cutAtLast? symbol s = some (l, r)) :
    Cuts s l symbol r ∧ ∀ l' r', ¬ Cuts r l' symbol r' := by
  obtain rfl := eq_append_of_cutAtLast? h
  obtain ⟨hr, hclear⟩ := (clear_of_cutFromRight? (clear_nil symbol)).1 l r h
  exact ⟨hs.cuts hc hr, fun l' r' => not_cuts_of_clear hclear⟩

theorem not_cuts_of_cutAtLast? {symbol : Char} (h : cutAtLast? symbol s = none) :
    ¬ Cuts s l symbol r := by
  have := (clear_of_cutFromRight? (clear_nil symbol)).2 h
  rw [List.reverse_reverse, List.append_nil] at this
  exact not_cuts_of_clear this

/-- The symbol stands between two balanced texts for the last time. -/
structure LastCut (s l : List Char) (symbol : Char) (r : List Char) : Prop
    extends Cuts s l symbol r where
  last : ∀ l' r', Cuts s l' symbol r' → l'.length ≤ l.length

/-- **On a balanced text the scan finds the last place outside all parentheses.** -/
theorem cutAtLast?_eq_some_iff {symbol : Char} (hs : Balanced s) (hc : depthStep symbol = 0) :
    cutAtLast? symbol s = some (l, r) ↔ LastCut s l symbol r := by
  have hfound : ∀ l r, cutAtLast? symbol s = some (l, r) → LastCut s l symbol r := by
    intro l r h
    obtain ⟨hcut, hnone⟩ := cuts_of_cutAtLast? hs hc h
    refine ⟨hcut, fun l' r' hcut' => ?_⟩
    rcases append_cons_eq (hcut.eq.symm.trans hcut'.eq)
      with ⟨rfl, -, -⟩ | ⟨m, rfl, hr⟩ | ⟨m, rfl, -⟩
    · exact Nat.le_refl _
    · have hm := (closes_append_iff hcut.left).mp hcut'.left
      exact absurd ⟨hr, (balanced_cons_iff hc).mp hm, hcut'.right⟩ (hnone m r')
    · simp
  refine ⟨hfound l r, fun h => ?_⟩
  rcases hcut : cutAtLast? symbol s with _ | ⟨l', r'⟩
  · exact absurd h.toCuts (not_cuts_of_cutAtLast? hcut)
  · have h' := hfound l' r' hcut
    have hlength := Nat.le_antisymm (h.last _ _ h'.toCuts) (h'.last _ _ h.toCuts)
    obtain ⟨rfl, hr⟩ := List.append_inj (h'.eq.symm.trans h.eq) hlength
    rw [(List.cons.inj hr).2]

theorem cutAtLast?_eq_none_iff {symbol : Char} (hs : Balanced s) (hc : depthStep symbol = 0) :
    cutAtLast? symbol s = none ↔ ∀ l r, ¬ Cuts s l symbol r := by
  refine ⟨fun h l r => not_cuts_of_cutAtLast? h, fun h => Option.eq_none_iff_forall_ne_some.mpr ?_⟩
  rintro ⟨l, r⟩ hcut
  exact h l r ((cutAtLast?_eq_some_iff hs hc).mp hcut).toCuts

end Worksheet.Expr
