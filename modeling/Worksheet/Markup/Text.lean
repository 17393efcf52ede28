import Worksheet.Text.Utf8

/-! # Text in markup

What tags, attributes and references are made of: white space, line ends, stretches up to a
delimiter, and the characters that references stand for. Markup is found among symbols, for it may
stand beside damage; what a stretch of text says is a matter of characters. -/

namespace Worksheet.Markup

open Text

/-- White space. -/
def isSpace (c : Char) : Bool := c == ' ' || c == '\t' || c == '\n' || c == '\r'

/-- White space between the parts of a tag. -/
def isGap (x : Symbol) : Bool := x.is isSpace

variable {α : Type} [DecidableEq α]

/-- What follows the delimiter, if the text begins with it. -/
def strip? : (delimiter : List α) → List α → Option (List α)
  | [], s => some s
  | _ :: _, [] => none
  | d :: delimiter, c :: s => if c = d then strip? delimiter s else none

/-- What stands before the first place of the delimiter, and what follows it. -/
def cut? (delimiter : List α) : List α → Option (List α × List α)
  | [] => none
  | c :: s =>
    match strip? delimiter (c :: s) with
    | some rest => some ([], rest)
    | none => (cut? delimiter s).map fun (before, rest) => (c :: before, rest)

/-- What follows the first place of the delimiter. -/
def after? (delimiter s : List α) : Option (List α) := (cut? delimiter s).map (·.2)

theorem eq_append_of_strip? {d s r : List α} (h : strip? d s = some r) : s = d ++ r := by
  induction d generalizing s with
  | nil => cases h; rfl
  | cons a d ih =>
    cases s with
    | nil => cases h
    | cons c s =>
      unfold strip? at h
      split at h
      · next hc => subst hc; exact congrArg (c :: ·) (ih h)
      · cases h

theorem eq_append_of_cut? {d s a r : List α} (h : cut? d s = some (a, r)) : s = a ++ (d ++ r) := by
  induction s generalizing a with
  | nil => cases h
  | cons c s ih =>
    unfold cut? at h
    split at h
    · next rest hr =>
      cases h
      exact (eq_append_of_strip? hr).trans (List.nil_append _).symm
    · obtain ⟨⟨b, r'⟩, hb, he⟩ := Option.map_eq_some_iff.mp h
      cases he
      exact congrArg (c :: ·) (ih hb)

theorem length_of_strip? {d s r : List α} (h : strip? d s = some r) : r.length ≤ s.length := by
  have := congrArg List.length (eq_append_of_strip? h)
  simp at this; omega

theorem length_of_cut? {d s a r : List α} (h : cut? d s = some (a, r)) : r.length ≤ s.length := by
  have := congrArg List.length (eq_append_of_cut? h)
  simp at this; omega

theorem length_of_after? {d s r : List α} (h : after? d s = some r) : r.length ≤ s.length := by
  obtain ⟨⟨a, r'⟩, ha, he⟩ := Option.map_eq_some_iff.mp h
  cases he
  exact length_of_cut? ha

theorem length_dropWhile_le {β : Type} (p : β → Bool) (s : List β) :
    (s.dropWhile p).length ≤ s.length :=
  (List.dropWhile_sublist p).length_le

/-! ### Tags and line ends -/

/-- Quotes of either kind. -/
def isQuote (x : Symbol) : Bool := x.is fun c => c == '"' || c == '\''

/-- The inside of a tag and what follows it. The tag ends at the first `>` that is not in quotes. -/
def tag? : (quote : Option Symbol) → List Symbol → Option (List Symbol × List Symbol)
  | _, [] => none
  | none, x :: s =>
    if x = .char '>' then some ([], s)
    else (tag? (if isQuote x then some x else none) s).map fun (inside, rest) => (x :: inside, rest)
  | some q, x :: s =>
    (tag? (if x = q then none else some q) s).map fun (inside, rest) => (x :: inside, rest)

theorem length_of_tag? {quote : Option Symbol} {s a r : List Symbol}
    (h : tag? quote s = some (a, r)) : r.length < s.length := by
  fun_induction tag? quote s generalizing a with
  | case1 => cases h
  | case2 => cases h; simp
  | case3 x s _ ih | case4 q x s ih =>
    obtain ⟨⟨b, r'⟩, hb, he⟩ := Option.map_eq_some_iff.mp h
    cases he
    have := ih hb
    simp; omega

/-- The text with every line end turned into a line feed. -/
def unifyLines : List Char → List Char
  | [] => []
  | '\r' :: '\n' :: s => '\n' :: unifyLines s
  | '\r' :: '\u0085' :: s => '\n' :: unifyLines s
  | c :: s => (if c == '\r' || c == '\u0085' || c == '\u2028' then '\n' else c) :: unifyLines s

/-! ### References -/

/-- The value of a hexadecimal digit. -/
def hexDigit? (c : Char) : Option Nat :=
  if c.isDigit then some (c.toNat - '0'.toNat)
  else if 'a' ≤ c ∧ c ≤ 'f' then some (c.toNat - 'a'.toNat + 10)
  else if 'A' ≤ c ∧ c ≤ 'F' then some (c.toNat - 'A'.toNat + 10)
  else none

/-- The value of a nonempty run of digits to the base, each below it. -/
def codeOf? (base : Nat) (s : List Char) : Option Nat := do
  let digits ← s.mapM hexDigit?
  if digits.isEmpty || digits.any (base ≤ ·) then none
  else some (digits.foldl (fun n d => base * n + d) 0)

/-- The character with a given code. The code 0 and the codes of surrogates have none. -/
def charOf? (code : Nat) : Option Char :=
  if code ≠ 0 ∧ code.isValidChar then some (Char.ofNat code) else none

/-- The character that a reference stands for. -/
def entity? (name : List Char) : Option Char :=
  match name with
  | '#' :: 'x' :: digits => (codeOf? 16 digits).bind charOf?
  | '#' :: digits => (codeOf? 10 digits).bind charOf?
  | ['l', 't'] => some '<'
  | ['g', 't'] => some '>'
  | ['a', 'm', 'p'] => some '&'
  | ['q', 'u', 'o', 't'] => some '"'
  | ['a', 'p', 'o', 's'] => some '\''
  | _ => none

/-- The text with its references replaced, if all of them stand for a character. -/
def expand? (s : List Char) : Option (List Char) :=
  match s with
  | [] => some []
  | '&' :: s =>
    match _h : cut? [';'] s with
    | some (name, rest) => do
      let c ← entity? name
      let t ← expand? rest
      some (c :: t)
    | none => none
  | c :: s => (expand? s).map (c :: ·)
termination_by s.length
decreasing_by
  · have := length_of_cut? _h; simp; omega
  · simp

/-- The text with the characters that begin markup replaced by references. -/
def escape (s : List Char) : List Char :=
  s.flatMap fun c =>
    match c with
    | '<' => ['&', 'l', 't', ';']
    | '>' => ['&', 'g', 't', ';']
    | '&' => ['&', 'a', 'm', 'p', ';']
    | c => [c]

end Worksheet.Markup
