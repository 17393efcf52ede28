import Worksheet.Markup.Text

/-! # Document type declarations

A document type declaration is passed over, whatever it declares; all that matters is where it ends.
Quotes hide an end in front of its subset and in the markup of the subset that has values in quotes,
and nowhere else. -/

namespace Worksheet.Markup

open Text

/-- The declarations whose values stand in quotes. -/
def quotingKeywords : List String := ["!ENTITY", "!ATTLIST", "!NOTATION"]

/-- What follows a piece of markup in a subset, given from behind its `<` on. -/
def afterSubsetMarkup? (s : List Symbol) : Option (List Symbol) :=
  match strip? (symbolsOf "!--") s, strip? (symbolsOf "?") s with
  | some t, _ => after? (symbolsOf "-->") t
  | none, some t => after? (symbolsOf "?>") t
  | none, none =>
    if quotingKeywords.any fun keyword => (strip? (symbolsOf keyword) s).isSome then
      (tag? none s).map (·.2)
    else after? (symbolsOf ">") s

theorem length_of_afterSubsetMarkup? {s r : List Symbol} (h : afterSubsetMarkup? s = some r) :
    r.length ≤ s.length := by
  unfold afterSubsetMarkup? at h
  split at h
  · next t _ ht => exact Nat.le_trans (length_of_after? h) (length_of_strip? ht)
  · next t ht => exact Nat.le_trans (length_of_after? h) (length_of_strip? ht)
  · split at h
    · obtain ⟨⟨a, r'⟩, ha, he⟩ := Option.map_eq_some_iff.mp h
      cases he
      exact Nat.le_of_lt (length_of_tag? ha)
    · exact length_of_after? h

/-- What follows a declaration, given from inside its subset on. -/
def afterSubset? (s : List Symbol) : Option (List Symbol) :=
  match s with
  | [] => none
  | .char ']' :: t => after? (symbolsOf ">") t
  | .char '<' :: t =>
    match _h : afterSubsetMarkup? t with
    | some rest => afterSubset? rest
    | none => none
  | _ :: t => afterSubset? t
termination_by s.length
decreasing_by
  · have := length_of_afterSubsetMarkup? _h; simp; omega
  · simp

/-- What follows a declaration, given from before its subset on, perhaps inside quotes. -/
def afterDeclaration? : (quote : Option Symbol) → List Symbol → Option (List Symbol)
  | _, [] => none
  | none, x :: s =>
    if x = .char '>' then some s
    else if x = .char '[' then afterSubset? s
    else afterDeclaration? (if isQuote x then some x else none) s
  | some q, x :: s => afterDeclaration? (if x = q then none else some q) s

/-- What follows a declaration, given from its keyword on. The keyword may be in either case, and
something must be declared. -/
def declaration? (s : List Symbol) : Option (List Symbol) :=
  let keyword := (characters? (s.take 7)).map (·.map Char.toUpper)
  let content := (s.drop 7).dropWhile isGap
  if keyword = some "DOCTYPE".toList ∧ content.head? ≠ some (.char '>') then
    afterDeclaration? none content
  else none

theorem length_of_afterSubset? {s r : List Symbol} (h : afterSubset? s = some r) :
    r.length ≤ s.length := by
  fun_induction afterSubset? s with
  | case1 => cases h
  | case2 t => have := length_of_after? h; simp; omega
  | case3 t rest ht ih =>
    have := length_of_afterSubsetMarkup? ht
    have := ih h
    simp; omega
  | case4 => cases h
  | case5 x t _ _ ih => have := ih h; simp; omega

theorem length_of_afterDeclaration? {quote : Option Symbol} {s r : List Symbol}
    (h : afterDeclaration? quote s = some r) : r.length ≤ s.length := by
  fun_induction afterDeclaration? quote s with
  | case1 => cases h
  | case2 => cases h; simp
  | case3 s _ => have := length_of_afterSubset? h; simp; omega
  | case4 x s _ _ ih | case5 q x s ih => have := ih h; simp; omega

theorem length_of_declaration? {s r : List Symbol} (h : declaration? s = some r) :
    r.length ≤ s.length := by
  unfold declaration? at h
  simp only at h
  split at h
  · have h1 := length_of_afterDeclaration? h
    have h2 := length_dropWhile_le isGap (s.drop 7)
    simp at h2; omega
  · cases h

end Worksheet.Markup
