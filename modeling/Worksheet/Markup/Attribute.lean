import Worksheet.Markup.Text

/-! # Attributes

The attributes of a tag are names with values in quotes of either kind. No white space is needed
between one and the next. What is not an attribute takes up a part of the tag as well, for some
readers go on behind it and some stop there; `attributes?` is for those that refuse it, and every
name that comes twice. -/

namespace Worksheet.Markup

open Text

/-- An attribute: its name, and its value with references as they are written. -/
structure Attribute where
  name : List Symbol
  value : List Symbol
deriving DecidableEq, Repr

/-- A part of a tag behind its name: an attribute, a name that is given something else than a value
in quotes, or a word that is given nothing. -/
inductive Part where
  | proper (a : Attribute)
  | unquoted (name : List Symbol)
  | word
deriving DecidableEq, Repr

/-- A value in quotes, and what follows it. -/
def quoted? : List Symbol → Option (List Symbol × List Symbol)
  | [] => none
  | x :: s => if isQuote x then cut? [x] s else none

/-- What follows something else than a value in quotes. Quotes that do not end take up all of the
tag. -/
def afterUnquoted : List Symbol → List Symbol
  | [] => []
  | x :: s => if isQuote x then [] else s.dropWhile (!isGap ·)

/-- The symbols that a name goes on with. -/
def isNamePart (x : Symbol) : Bool := x != .char '=' && !isGap x

/-- The part of a tag that begins with the given symbol, and what follows it. -/
def part (x : Symbol) (s : List Symbol) : Part × List Symbol :=
  let name := x :: s.takeWhile isNamePart
  match (s.dropWhile isNamePart).dropWhile isGap with
  | .char '=' :: t =>
    match quoted? (t.dropWhile isGap) with
    | some (value, rest) => (.proper ⟨name, value⟩, rest)
    | none => (.unquoted name, afterUnquoted (t.dropWhile isGap))
  | rest => (.word, rest)

theorem length_of_quoted? {s a r : List Symbol} (h : quoted? s = some (a, r)) :
    r.length ≤ s.length := by
  unfold quoted? at h
  split at h
  · cases h
  · split at h
    · have := length_of_cut? h; simp; omega
    · cases h

theorem length_afterUnquoted_le (s : List Symbol) : (afterUnquoted s).length ≤ s.length := by
  unfold afterUnquoted
  split
  · exact Nat.le_refl _
  · next x s =>
    split
    · simp
    · have := length_dropWhile_le (!isGap ·) s
      simp; omega

theorem length_part_le (x : Symbol) (s : List Symbol) : (part x s).2.length ≤ s.length := by
  have h1 := length_dropWhile_le isNamePart s
  have h2 := length_dropWhile_le isGap (s.dropWhile isNamePart)
  unfold part
  simp only
  split
  · next t ht =>
    rw [ht, List.length_cons] at h2
    have h3 := length_dropWhile_le isGap t
    split
    · next value rest h => have := length_of_quoted? h; simp only; omega
    · have := length_afterUnquoted_le (t.dropWhile isGap); simp only; omega
  · simp only; omega

/-- The parts of a tag behind its name. -/
def parts (s : List Symbol) : List Part :=
  match _h : s.dropWhile isGap with
  | [] => []
  | x :: t => (part x t).1 :: parts (part x t).2
termination_by s.length
decreasing_by
  have h1 := length_part_le x t
  have h2 := length_dropWhile_le isGap s
  rw [_h, List.length_cons] at h2
  omega

/-! ### Readings of a tag -/

/-- The attribute that a part is. -/
def Part.attribute? : Part → Option Attribute
  | proper a => some a
  | _ => none

/-- The attributes of a tag that consists of nothing else, if no name comes twice. -/
def attributes? (s : List Symbol) : Option (List Attribute) := do
  let attributes ← (parts s).mapM Part.attribute?
  if (attributes.map (·.name)).Nodup then some attributes else none

/-- The attributes in front of the first part that is none. -/
def leading : List Part → List Attribute
  | .proper a :: ps => a :: leading ps
  | _ => []

/-- The attributes whose names have not come before, given the names that have. -/
def unrepeated : (seen : List (List Symbol)) → List Part → List Attribute
  | _, [] => []
  | seen, .proper a :: ps =>
    if a.name ∈ seen then unrepeated seen ps else a :: unrepeated (a.name :: seen) ps
  | seen, .unquoted name :: ps => unrepeated (name :: seen) ps
  | seen, .word :: ps => unrepeated seen ps

end Worksheet.Markup
