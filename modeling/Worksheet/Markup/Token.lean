import Worksheet.Markup.Declaration

/-! # Tokens of markup

A document is a row of tags, stretches of text and references. Comments and processing instructions
are passed over, a marked section is text, and a tag that is its own end counts as two. What cannot
be read ends the row with the token `malformed`, so that only a reader that gets there is stopped by
it. -/

namespace Worksheet.Markup

open Text

/-- A token of a document. -/
inductive Token where
  | opening (name attributes : List Symbol)
  | closing (name : List Symbol)
  | text (symbols : List Symbol)
  | reference (name : List Symbol)
  | declaration
  | malformed
deriving DecidableEq, Repr

/-- The tokens of a tag that is not a closing one, given its inside. -/
def ofTag (inside : List Symbol) : List Token :=
  let name (s : List Symbol) := s.takeWhile (!isGap ·)
  let attributes (s : List Symbol) := s.dropWhile (!isGap ·)
  if inside.getLast? = some (.char '/') then
    [.opening (name inside.dropLast) (attributes inside.dropLast), .closing (name inside.dropLast)]
  else [.opening (name inside) (attributes inside)]

/-- The name in a closing tag: what it holds without white space at its end, if there is anything
else. -/
def closingName (inside : List Symbol) : List Symbol :=
  if inside.all isGap then inside else (inside.reverse.dropWhile isGap).reverse

/-- The tokens of what follows a `<`, and the rest of the document. -/
def markup? (s : List Symbol) : Option (List Token × List Symbol) :=
  match s with
  | .char '!' :: t =>
    match strip? (symbolsOf "--") t, strip? (symbolsOf "[CDATA[") t with
    | some u, _ => (after? (symbolsOf "-->") u).map ([], ·)
    | none, some u => (cut? (symbolsOf "]]>") u).map fun (inside, rest) => ([.text inside], rest)
    | none, none => (declaration? t).map ([.declaration], ·)
  | .char '?' :: .char '>' :: _ => none
  | .char '?' :: t => (after? (symbolsOf "?>") t).map ([], ·)
  | .char '/' :: t => (tag? none t).map fun (inside, rest) =>
    ([.closing (closingName inside)], rest)
  | t => (tag? none t).map fun (inside, rest) => (ofTag inside, rest)

/-- The symbols that stand for themselves in text. -/
def isPlain (x : Symbol) : Bool := x != .char '<' && x != .char '&'

/-- The first tokens of a document, and the rest of it. -/
def next? (s : List Symbol) : Option (List Token × List Symbol) :=
  match s with
  | [] => none
  | .char '<' :: t => markup? t
  | .char '&' :: t =>
    let name := t.takeWhile fun x => isPlain x && x != .char ';'
    (strip? (name ++ [.char ';']) t).map ([.reference name], ·)
  | s => some ([.text (s.takeWhile isPlain)], s.dropWhile isPlain)

theorem length_of_markup? {s r : List Symbol} {ts : List Token} (h : markup? s = some (ts, r)) :
    r.length ≤ s.length := by
  unfold markup? at h
  split at h
  · next t =>
    split at h
    · next u _ hu =>
      obtain ⟨r', hr, he⟩ := Option.map_eq_some_iff.mp h
      cases he
      have := length_of_after? hr
      have := length_of_strip? hu
      simp; omega
    · next u _ hu =>
      obtain ⟨⟨a, r'⟩, hr, he⟩ := Option.map_eq_some_iff.mp h
      cases he
      have := length_of_cut? hr
      have := length_of_strip? hu
      simp; omega
    · obtain ⟨r', hr, he⟩ := Option.map_eq_some_iff.mp h
      cases he
      have := length_of_declaration? hr
      simp; omega
  · cases h
  · obtain ⟨r', hr, he⟩ := Option.map_eq_some_iff.mp h
    cases he
    have := length_of_after? hr
    simp; omega
  all_goals
    obtain ⟨⟨a, r'⟩, ha, he⟩ := Option.map_eq_some_iff.mp h
    cases he
    have := length_of_tag? ha
    first | omega | (simp; omega)

theorem length_of_next? {s r : List Symbol} {ts : List Token} (h : next? s = some (ts, r)) :
    r.length < s.length := by
  unfold next? at h
  split at h
  · cases h
  · have := length_of_markup? h; simp; omega
  · obtain ⟨r', hr, he⟩ := Option.map_eq_some_iff.mp h
    cases he
    have := length_of_strip? hr; simp; omega
  · next hnil hlt hamp =>
    cases h
    cases s with
    | nil => exact absurd rfl hnil
    | cons x s =>
      have hx : isPlain x = true := by
        simp only [isPlain, Bool.and_eq_true, bne_iff_ne, ne_eq]
        exact ⟨fun e => hlt s (by rw [e]), fun e => hamp s (by rw [e])⟩
      have := length_dropWhile_le isPlain s
      simp [hx]; omega

/-- The tokens of a document. -/
def tokens (s : List Symbol) : List Token :=
  match _h : next? s with
  | none => if s.isEmpty then [] else [.malformed]
  | some (first, rest) => first ++ tokens rest
termination_by s.length
decreasing_by exact length_of_next? _h

end Worksheet.Markup
