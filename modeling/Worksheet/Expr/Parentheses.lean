/-! # Parentheses

Three scans of a text that count parentheses: whether they are balanced, what stands inside a pair
that wraps the whole text, and where a symbol last stands outside all of them. -/

namespace Worksheet.Expr

/-- Whether the parentheses of the text close `depth` open ones and each other. -/
def closes : Nat → List Char → Bool
  | depth, [] => depth == 0
  | depth, '(' :: s => closes (depth + 1) s
  | 0, ')' :: _ => false
  | depth + 1, ')' :: s => closes depth s
  | depth, _ :: s => closes depth s

/-- Whether every parenthesis of the text has its partner. -/
def isBalanced (s : List Char) : Bool := closes 0 s

/-- What stands before the last character of the text, if that is the parenthesis which closes one
that was opened before the text, with `depth` more opened inside it. -/
def beforeClose? : Nat → List Char → Option (List Char)
  | _, [] => none
  | 0, [')'] => some []
  | 0, ')' :: _ => none
  | depth + 1, ')' :: s => (beforeClose? depth s).map (')' :: ·)
  | depth, '(' :: s => (beforeClose? (depth + 1) s).map ('(' :: ·)
  | depth, c :: s => (beforeClose? depth s).map (c :: ·)

/-- The inside of a pair of parentheses that wraps the whole text. -/
def inside? : List Char → Option (List Char)
  | '(' :: s => beforeClose? 0 s
  | _ => none

/-- The step of the depth at a character when a text is read from its right end. -/
def depthStep : Char → Int
  | '(' => 1
  | ')' => -1
  | _ => 0

/-- The texts around the first place, from the right end of the text, where the symbol stands at
depth 0. The text is given reversed, and `right` is what has been read of it already. -/
def cutFromRight? (symbol : Char) : Int → List Char → List Char → Option (List Char × List Char)
  | _, [], _ => none
  | depth, c :: left, right =>
    if c = symbol ∧ depth = 0 then some (left.reverse, right)
    else cutFromRight? symbol (depth + depthStep c) left (c :: right)

/-- The texts before and after the last place where the symbol stands outside all parentheses. -/
def cutAtLast? (symbol : Char) (s : List Char) : Option (List Char × List Char) :=
  cutFromRight? symbol 0 s.reverse []

/-! ### What the scans keep -/

theorem eq_append_of_beforeClose? {depth : Nat} {s t : List Char}
    (h : beforeClose? depth s = some t) : s = t ++ [')'] := by
  fun_induction beforeClose? depth s generalizing t with
  | case1 => cases h
  | case2 => cases h; rfl
  | case3 => cases h
  | case4 depth s ih => obtain ⟨u, hu, rfl⟩ := Option.map_eq_some_iff.mp h; simp [← ih hu]
  | case5 depth s ih => obtain ⟨u, hu, rfl⟩ := Option.map_eq_some_iff.mp h; simp [← ih hu]
  | case6 depth c s _ _ _ _ ih => obtain ⟨u, hu, rfl⟩ := Option.map_eq_some_iff.mp h; simp [← ih hu]

theorem eq_wrapped_of_inside? {s t : List Char} (h : inside? s = some t) :
    s = '(' :: (t ++ [')']) := by
  unfold inside? at h
  split at h
  · rw [eq_append_of_beforeClose? h]
  · cases h

theorem eq_append_of_cutFromRight? {symbol : Char} {depth : Int} {left right l r : List Char}
    (h : cutFromRight? symbol depth left right = some (l, r)) :
    left.reverse ++ right = l ++ symbol :: r := by
  induction left generalizing depth right with
  | nil => simp [cutFromRight?] at h
  | cons c left ih =>
    unfold cutFromRight? at h
    split at h
    · next hc => cases h; simp [hc.1]
    · rw [← ih h]; simp

theorem eq_append_of_cutAtLast? {symbol : Char} {s l r : List Char}
    (h : cutAtLast? symbol s = some (l, r)) : s = l ++ symbol :: r := by
  have := eq_append_of_cutFromRight? h
  simpa using this

end Worksheet.Expr
