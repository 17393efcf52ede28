import Worksheet.Proofs.Calculation
import Worksheet.Proofs.Spelling

/-! # The tokens of a source

The parser knows no tokens: it cuts a text at operators that it looks for from the right. `tokens`
reads a text once, from left to right, as a row of words and operators, and leaves nothing of it out
but blanks and parentheses (`characters_tokens`). A tree that is read from a text, gone through in
order, gives this row (`tokens_eq_inorder`). What stands in a pair of parentheses is read to one
part of the tree, which has the tokens before the pair in front of it and those after the pair
behind it (`exists_partAt`). `compile_keeps_tokens` is the statement on calculators. -/

namespace Worksheet

open Worksheet.Text

namespace Expr

variable {α β : Type}

/-! ### Tokens of a tree -/

/-- A token of an expression: a number, a name or an operator. -/
inductive Token (α : Type) where
  | number (value : α)
  | name (text : String)
  | operator (op : Operator)
deriving DecidableEq, Repr

/-- The token with another number. -/
def Token.map (f : α → β) : Token α → Token β
  | number value => number (f value)
  | name text => name text
  | operator op => operator op

/-- The tokens of a tree in order: those of the left side, the operator, those of the right side. -/
def inorder : Expr α → List (Token α)
  | const value => [.number value]
  | var name => [.name name]
  | operation op left right => left.inorder ++ .operator op :: right.inorder

/-- The part stands in the tree with these tokens before and after it. -/
inductive PartAt (part : Expr α) : List (Token α) → Expr α → List (Token α) → Prop where
  | whole : PartAt part [] part []
  | left (op : Operator) {before after : List (Token α)} {left : Expr α} (right : Expr α)
    (h : PartAt part before left after) :
    PartAt part before (.operation op left right) (after ++ .operator op :: right.inorder)
  | right (op : Operator) {before after : List (Token α)} (left : Expr α) {right : Expr α}
    (h : PartAt part before right after) :
    PartAt part (left.inorder ++ .operator op :: before) (.operation op left right) after

theorem inorder_map (f : α → β) (e : Expr α) : (e.map f).inorder = e.inorder.map (Token.map f) := by
  induction e with
  | const | var => rfl
  | operation op left right hl hr => simp [map, inorder, hl, hr, Token.map]

theorem PartAt.map (f : α → β) {part tree : Expr α} {before after : List (Token α)}
    (h : PartAt part before tree after) :
    PartAt (part.map f) (before.map (Token.map f)) (tree.map f) (after.map (Token.map f)) := by
  induction h with
  | whole => exact .whole
  | left op right _ ih =>
    rw [List.map_append, List.map_cons, ← inorder_map]
    exact .left op _ ih
  | right op left _ ih =>
    rw [List.map_append, List.map_cons, ← inorder_map]
    exact .right op _ ih

theorem mem_vars_iff {e : Expr α} {x : String} : x ∈ e.vars ↔ .name x ∈ e.inorder := by
  induction e with
  | const | var => simp [vars, inorder]
  | operation op left right hl hr => simp [vars, inorder, hl, hr]

/-! ### Tokens of a text -/

/-- The character stands between tokens: it is a blank or a parenthesis. -/
def isGap (c : Char) : Bool := isBlank c || c == '(' || c == ')'

/-- The character ends a word: it stands between tokens, or is one itself. -/
def isMark (c : Char) : Bool := isGap c || (Operator.ofSymbol? c).isSome

namespace Token

/-- The characters of a token. -/
def characters : Token String → List Char
  | number digits => digits.toList
  | name text => text.toList
  | operator op => [op.symbol]

/-- The token is spelled as it should be: a number in digits, a name as an identifier. -/
def IsProper : Token String → Prop
  | number digits => isDigits digits.toList = true
  | name text => isIdentifier text.toList = true
  | operator _ => True

/-- The token of a word, if there is a word: a number if all its characters are digits. -/
def ofWord (word : List Char) : List (Token String) :=
  if word = [] then [] else if isDigits word then [number (String.ofList word)]
    else [name (String.ofList word)]

/-- The token of a character that ends a word, if it is the symbol of an operator. -/
def ofMark (c : Char) : List (Token String) := (Operator.ofSymbol? c).toList.map operator

end Token

/-- The tokens of a text that stands behind the beginning of a word. -/
def tokensFrom (word : List Char) : List Char → List (Token String)
  | [] => Token.ofWord word
  | c :: s =>
    if isMark c then Token.ofWord word ++ (Token.ofMark c ++ tokensFrom [] s)
    else tokensFrom (word ++ [c]) s

/-- The tokens of a text from left to right. A word ends at a blank, a parenthesis or an
operator. -/
def tokens (s : List Char) : List (Token String) := tokensFrom [] s

variable {s l m r p q before inside after : List Char} {c : Char} {op : Operator}
    {tree : Expr String}

theorem ofSymbol?_eq_some_iff : Operator.ofSymbol? c = some op ↔ op.symbol = c := by
  constructor
  · intro h
    simpa using List.find?_some h
  · rintro rfl
    rcases op <;> rfl

theorem ofSymbol?_of_isGap (h : isGap c = true) : Operator.ofSymbol? c = none := by
  refine Option.eq_none_iff_forall_ne_some.mpr fun op hop => ?_
  obtain rfl := ofSymbol?_eq_some_iff.mp hop
  revert h
  rcases op <;> decide

theorem isGap_of_isBlank (h : isBlank c = true) : isGap c = true := by
  simp [isGap, h]

theorem isMark_of_isGap (h : isGap c = true) : isMark c = true := by
  simp [isMark, h]

theorem isMark_symbol (op : Operator) : isMark op.symbol = true := by
  simp [isMark, ofSymbol?_eq_some_iff.mpr rfl]

theorem ofMark_symbol (op : Operator) : Token.ofMark op.symbol = [.operator op] := by
  simp [Token.ofMark, ofSymbol?_eq_some_iff.mpr rfl]

theorem ofMark_of_isGap (h : isGap c = true) : Token.ofMark c = [] := by
  simp [Token.ofMark, ofSymbol?_of_isGap h]

theorem characters_ofWord (word : List Char) :
    (Token.ofWord word).flatMap Token.characters = word := by
  unfold Token.ofWord
  split
  · next h => rw [h]; rfl
  · split <;> simp [Token.characters]

theorem characters_ofMark (h : isMark c = true) :
    (Token.ofMark c).flatMap Token.characters = if isGap c then [] else [c] := by
  by_cases hgap : isGap c = true
  · simp [ofMark_of_isGap hgap, hgap]
  · obtain ⟨op, hop⟩ : ∃ op, Operator.ofSymbol? c = some op := by
      simpa [isMark, hgap, Option.isSome_iff_exists] using h
    obtain rfl := ofSymbol?_eq_some_iff.mp hop
    rw [ofMark_symbol, if_neg hgap]
    rfl

theorem characters_tokensFrom (word s : List Char) :
    (tokensFrom word s).flatMap Token.characters = word ++ s.filter (!isGap ·) := by
  fun_induction tokensFrom word s with
  | case1 word => simp [characters_ofWord]
  | case2 word c s hc ih =>
    rw [List.flatMap_append, List.flatMap_append, characters_ofWord, characters_ofMark hc, ih]
    by_cases hgap : isGap c <;> simp [hgap]
  | case3 word c s hc ih =>
    have hgap : isGap c = false := Bool.eq_false_iff.mpr fun h => hc (isMark_of_isGap h)
    rw [ih]
    simp [hgap]

/-- **Nothing is left out of a text but blanks and parentheses**, and nothing is twice in its
tokens. -/
theorem characters_tokens (s : List Char) :
    (tokens s).flatMap Token.characters = s.filter (!isGap ·) :=
  characters_tokensFrom [] s

theorem tokensFrom_append_mark (hc : isMark c = true) (word l r : List Char) :
    tokensFrom word (l ++ c :: r) = tokensFrom word l ++ (Token.ofMark c ++ tokens r) := by
  fun_induction tokensFrom word l with
  | case1 word => rw [List.nil_append, tokensFrom, if_pos hc]; rfl
  | case2 word d l hd ih => rw [List.cons_append, tokensFrom, if_pos hd, ih]; simp
  | case3 word d l hd ih => rw [List.cons_append, tokensFrom, if_neg hd, ih]

/-- Tokens do not reach across a character that stands between them. -/
theorem tokens_append_gap (hc : isGap c = true) (l r : List Char) :
    tokens (l ++ c :: r) = tokens l ++ tokens r := by
  have h := tokensFrom_append_mark (isMark_of_isGap hc) [] l r
  rwa [ofMark_of_isGap hc, List.nil_append] at h

theorem tokens_append_symbol (op : Operator) (l r : List Char) :
    tokens (l ++ op.symbol :: r) = tokens l ++ .operator op :: tokens r := by
  have h := tokensFrom_append_mark (isMark_symbol op) [] l r
  rwa [ofMark_symbol, List.singleton_append] at h

theorem tokens_cons_gap (hc : isGap c = true) (s : List Char) : tokens (c :: s) = tokens s :=
  tokens_append_gap hc [] s

theorem tokens_blank_append (hp : Blank p) (s : List Char) : tokens (p ++ s) = tokens s := by
  induction p with
  | nil => rfl
  | cons c p ih =>
    rw [List.cons_append, tokens_cons_gap (isGap_of_isBlank (hp c List.mem_cons_self))]
    exact ih fun d hd => hp d (List.mem_cons_of_mem c hd)

theorem tokens_append_blank (hq : Blank q) (s : List Char) : tokens (s ++ q) = tokens s := by
  rcases q with _ | ⟨c, q⟩
  · rw [List.append_nil]
  · have hrest := tokens_blank_append (fun d hd => hq d (List.mem_cons_of_mem c hd)) []
    rw [List.append_nil] at hrest
    rw [tokens_append_gap (isGap_of_isBlank (hq c List.mem_cons_self)), hrest]
    exact List.append_nil _

theorem tokens_trim (s : List Char) : tokens (trim s) = tokens s := by
  obtain ⟨p, q, heq, hp, hq⟩ := exists_eq_append_trim s
  conv_rhs => rw [heq, tokens_append_blank hq, tokens_blank_append hp]

theorem tokens_append_close (s : List Char) : tokens (s ++ [')']) = tokens s := by
  rw [tokens_append_gap (by decide)]
  exact List.append_nil _

theorem tokens_wrap (m : List Char) : tokens ('(' :: (m ++ [')'])) = tokens m := by
  rw [tokens_cons_gap (by decide), tokens_append_close]

theorem tokensFrom_of_word (hs : ∀ c ∈ s, isMark c = false) (word : List Char) :
    tokensFrom word s = Token.ofWord (word ++ s) := by
  induction s generalizing word with
  | nil => rw [List.append_nil]; rfl
  | cons c s ih =>
    rw [tokensFrom, if_neg (by simp [hs c List.mem_cons_self]),
      ih fun d hd => hs d (List.mem_cons_of_mem c hd)]
    simp

namespace Operand

theorem isMark_of_mem (h : Operand s tree) (hc : c ∈ s) : isMark c = false := by
  have hopen : c ≠ '(' := fun he => h.open_not_mem (he ▸ hc)
  have hclose : c ≠ ')' := fun he => h.not_mem (c := ')') (by decide) (he ▸ hc)
  have hsymbol : Operator.ofSymbol? c = none := Option.eq_none_iff_forall_ne_some.mpr fun op hop =>
    h.symbol_not_mem op (ofSymbol?_eq_some_iff.mp hop ▸ hc)
  simp [isMark, isGap, h.isBlank_of_mem c hc, hopen, hclose, hsymbol]

/-- An operand is a run of digits or, if not, an identifier. -/
theorem cases_isDigits (h : Operand s tree) :
    (isDigits s = true ∧ tree = .const (String.ofList s)) ∨
      (isDigits s = false ∧ isIdentifier s = true ∧ tree = .var (String.ofList s)) := by
  have hread := readLeaf_eq_ok_iff.mpr h
  unfold readLeaf at hread
  split at hread
  · next hd => exact Or.inl ⟨hd, (Except.ok.inj hread).symm⟩
  · next hd =>
    split at hread
    · next hi => exact Or.inr ⟨Bool.eq_false_iff.mpr hd, hi, (Except.ok.inj hread).symm⟩
    · exact nomatch hread

theorem tokens_eq (h : Operand s tree) : tokens s = tree.inorder := by
  have hword : tokens s = Token.ofWord s := tokensFrom_of_word (fun _ => h.isMark_of_mem) []
  rw [hword, Token.ofWord, if_neg h.ne_nil]
  rcases h.cases_isDigits with ⟨hd, rfl⟩ | ⟨hd, -, rfl⟩
  · rw [if_pos hd]
    rfl
  · rw [if_neg (by simp [hd])]
    rfl

theorem isProper (h : Operand s tree) : ∀ t ∈ tree.inorder, t.IsProper := by
  rcases h.cases_isDigits with ⟨hd, rfl⟩ | ⟨-, hi, rfl⟩ <;> simpa [inorder, Token.IsProper]

end Operand

/-- **A tree that is read holds the tokens of the text in order.** -/
theorem tokens_eq_inorder (h : (plan s).tree? = some tree) : tokens s = tree.inorder := by
  fun_induction plan s generalizing tree with
  | case1 => exact absurd h (by simp [Plan.tree?])
  | case2 s _ inner hi ih =>
    rw [← tokens_trim, eq_wrapped_of_inside? hi, tokens_wrap]
    exact ih h
  | case3 s _ _ op left right hs ihl ihr =>
    obtain ⟨l, r, hl, hr, rfl⟩ := Plan.tree?_split.mp h
    rw [← tokens_trim, eq_append_of_cutAtLast? (split?_eq_some_iff.mp hs).1, tokens_append_symbol,
      ihl hl, ihr hr]
    rfl
  | case4 s _ _ _ =>
    rw [← tokens_trim]
    exact (tree?_leaf.mp h).tokens_eq

theorem isProper_of_mem_inorder (h : (plan s).tree? = some tree) :
    ∀ t ∈ tree.inorder, t.IsProper := by
  fun_induction plan s generalizing tree with
  | case1 => exact absurd h (by simp [Plan.tree?])
  | case2 s _ inner hi ih => exact ih h
  | case3 s _ _ op left right hs ihl ihr =>
    obtain ⟨l, r, hl, hr, rfl⟩ := Plan.tree?_split.mp h
    intro t ht
    rcases List.mem_append.mp ht with ht | ht
    · exact ihl hl t ht
    · rcases List.mem_cons.mp ht with rfl | ht
      · trivial
      · exact ihr hr t ht
  | case4 s _ _ _ => exact (tree?_leaf.mp h).isProper

/-! ### Groups -/

/-- The text has a pair of parentheses, with these texts before it, inside it and after it. -/
structure Group (s before inside after : List Char) : Prop where
  eq : s = before ++ '(' :: (inside ++ ')' :: after)
  balanced : Balanced inside

namespace Group

/-- A pair in a text stands in the trimmed text, between the same tokens. -/
theorem of_trim (h : Group s before inside after) :
    ∃ before' after', tokens before = tokens before' ∧ tokens after = tokens after' ∧
      Group (trim s) before' inside after' := by
  obtain ⟨p, q, hs, hp, hq⟩ := exists_eq_append_trim s
  have hopen : '(' ∉ p := fun hm => absurd (hp _ hm) (by decide)
  have hclose : ')' ∉ q := fun hm => absurd (hq _ hm) (by decide)
  have heq : p ++ (trim s ++ q) = before ++ '(' :: (inside ++ ')' :: after) := by
    rw [← List.append_assoc, ← hs, h.eq]
  obtain ⟨before', rfl, hrest⟩ := exists_place_of_not_mem_left heq hopen
  have heq' : trim s ++ q = (before' ++ '(' :: inside) ++ ')' :: after := by rw [hrest]; simp
  obtain ⟨after', rfl, htrim⟩ := exists_place_of_not_mem_right heq' hclose
  exact ⟨before', after', tokens_blank_append hp _, tokens_append_blank hq _,
    by simp [htrim], h.balanced⟩

/-- A pair in a text that is wrapped in parentheses is that of the wrapping, or one of the text
inside. -/
theorem of_wrap (hm : Balanced m) (h : Group ('(' :: (m ++ [')'])) before inside after) :
    (before = [] ∧ inside = m ∧ after = []) ∨
      ∃ before' after', before = '(' :: before' ∧ after = after' ++ [')'] ∧
        Group m before' inside after' := by
  have hsurplus := h.balanced.surplus_eq
  rcases before with _ | ⟨d, before⟩
  · have heq : m ++ ')' :: [] = inside ++ ')' :: after := (List.cons.inj h.eq).2
    rcases append_cons_eq heq with ⟨rfl, -, rfl⟩ | ⟨x, -, hx⟩ | ⟨x, hx, -⟩
    · exact Or.inl ⟨rfl, rfl, rfl⟩
    · exact absurd hx (by simp)
    · have hprefix := (balanced_iff.mp hm).2 (inside ++ [')']) ⟨x, by simp [hx]⟩
      rw [surplus_append, surplus_cons, surplus_nil, depthStep_close] at hprefix
      omega
  · obtain ⟨rfl, htail⟩ := List.cons.inj h.eq
    have heq : m ++ ')' :: [] = (before ++ '(' :: inside) ++ ')' :: after := by rw [htail]; simp
    rcases append_cons_eq heq with ⟨rfl, -, -⟩ | ⟨x, -, hx⟩ | ⟨x, rfl, hx⟩
    -- the pair would be closed by the parenthesis behind the text
    · have hprefix := (balanced_iff.mp hm).2 before (List.prefix_append _ _)
      have hwhole := hm.surplus_eq
      rw [surplus_append, surplus_cons, depthStep_open] at hwhole
      omega
    · exact absurd hx (by simp)
    · exact Or.inr ⟨before, x, rfl, hx, by simp, h.balanced⟩

/-- A pair in an operation is one of its left or of its right side. -/
theorem of_operation (hl : Balanced l) (h : Group (l ++ op.symbol :: r) before inside after) :
    (∃ after', after = after' ++ op.symbol :: r ∧ Group l before inside after') ∨
      ∃ before', before = l ++ op.symbol :: before' ∧ Group r before' inside after := by
  have hopen : op.symbol ≠ '(' := by rcases op <;> decide
  have hclose : op.symbol ≠ ')' := by rcases op <;> decide
  rcases append_cons_eq h.eq with ⟨-, he, -⟩ | ⟨x, hx, hr⟩ | ⟨x, rfl, hx⟩
  · exact absurd he hopen
  · exact Or.inr ⟨x, hx, hr, h.balanced⟩
  · rcases append_cons_eq hx with ⟨-, he, -⟩ | ⟨y, rfl, hy⟩ | ⟨y, rfl, -⟩
    · exact absurd he.symm hclose
    · exact Or.inl ⟨y, hy, rfl, h.balanced⟩
    -- the pair would be opened in the left side and closed in the right one
    · have hbefore := (balanced_iff.mp hl).2 before (List.prefix_append _ _)
      have hinside := (balanced_iff.mp h.balanced).2 x (List.prefix_append _ _)
      have hwhole := hl.surplus_eq
      rw [surplus_append, surplus_cons, depthStep_open] at hwhole
      omega

end Group

/-- **What stands in parentheses is read to one part of the tree**, with the tokens before the pair
in front of it and those after the pair behind it. -/
theorem exists_partAt (hs : Balanced s) (h : (plan s).tree? = some tree)
    (hg : Group s before inside after) :
    ∃ part, (plan inside).tree? = some part ∧ PartAt part (tokens before) tree (tokens after) := by
  fun_induction plan s generalizing tree before after with
  | case1 => exact absurd h (by simp [Plan.tree?])
  | case2 s _ m hi ih =>
    obtain ⟨hw, hm⟩ := inside?_eq_some_iff.mp hi
    obtain ⟨before', after', hbefore, hafter, hg'⟩ := hg.of_trim
    rw [hbefore, hafter]
    rcases (hw ▸ hg').of_wrap hm with ⟨rfl, rfl, rfl⟩ | ⟨x, y, rfl, rfl, hin⟩
    · exact ⟨tree, h, .whole⟩
    · rw [tokens_cons_gap (by decide), tokens_append_close]
      exact ih hm h hin
  | case3 s _ _ op left right hsplit ihl ihr =>
    obtain ⟨l, r, hl, hr, rfl⟩ := Plan.tree?_split.mp h
    have hc := lastCut_of_split? (balanced_trim_iff.mpr hs) hsplit
    obtain ⟨before', after', hbefore, hafter, hg'⟩ := hg.of_trim
    rw [hbefore, hafter]
    rcases (hc.eq ▸ hg').of_operation hc.left with ⟨y, rfl, hin⟩ | ⟨x, rfl, hin⟩
    · obtain ⟨part, hpart, hat⟩ := ihl hc.left hl hin
      rw [tokens_append_symbol, tokens_eq_inorder hr]
      exact ⟨part, hpart, .left op r hat⟩
    · obtain ⟨part, hpart, hat⟩ := ihr hc.right hr hin
      rw [tokens_append_symbol, tokens_eq_inorder hl]
      exact ⟨part, hpart, .right op l hat⟩
  | case4 s _ _ _ =>
    obtain ⟨before', after', -, -, hg'⟩ := hg.of_trim
    exact absurd (by simp [hg'.eq]) (tree?_leaf.mp h).open_not_mem

end Expr

namespace Calculator

open Worksheet.Expr

/-- **A compiled source loses, doubles and reorders nothing.** The tokens of the source, written one
after the other, are the source without its blanks and parentheses; they are operators, runs of
digits and identifiers. The tree, gone through in order, holds just these tokens, each run of digits
as its number. The tokens of a pair of parentheses are those of one part of the tree, which stands
behind what is before the pair and in front of what is after it. The variables are the identifiers
among the tokens, each once, and their values are 0. -/
theorem compile_keeps_tokens {source : String} {c : Calculator} {root : Expr Float}
    (h : compile source = .ok c) (hroot : c.root = some root) :
    (tokens source.toList).flatMap Token.characters = source.toList.filter (!isGap ·) ∧
    (∀ t ∈ tokens source.toList, t.IsProper) ∧
    root.inorder = (tokens source.toList).map (Token.map floatOf) ∧
    (∀ before inside after, Group source.toList before inside after →
      ∃ part : Expr Float, part.inorder = (tokens inside).map (Token.map floatOf) ∧
        PartAt part ((tokens before).map (Token.map floatOf)) root
          ((tokens after).map (Token.map floatOf))) ∧
    (c.values.entries.map Prod.fst).Nodup ∧
    ∀ x v, (x, v) ∈ c.values.entries ↔ .name x ∈ tokens source.toList ∧ v = 0 := by
  obtain ⟨_ | tree, hread, rfl⟩ := exists_read_of_compile h
  · exact nomatch hroot
  obtain rfl : tree.map floatOf = root := Option.some.inj hroot
  obtain ⟨htree, -⟩ := read_eq_ok_some_iff.mp hread
  have htokens := tokens_eq_inorder htree
  refine ⟨characters_tokens _, ?_, ?_, fun before inside after hg => ?_, ?_⟩
  · rw [htokens]
    exact isProper_of_mem_inorder htree
  · rw [inorder_map, htokens]
  · obtain ⟨part, hpart, hat⟩ := exists_partAt (Grammar.of_tree? htree).balanced htree hg
    refine ⟨part.map floatOf, ?_, hat.map floatOf⟩
    rw [inorder_map, tokens_eq_inorder hpart]
  · have hsorted : (Table.constant tree.vars (0 : Float)).Sorted := Table.sorted_ofList _
    refine ⟨hsorted.nodup_names, fun x v => ?_⟩
    have hname : .name x ∈ tokens source.toList ↔ x ∈ tree.vars := by rw [htokens, mem_vars_iff]
    rw [Option.elim_some, ← hsorted.find?_eq_some_iff, Table.find?_constant, hname]
    by_cases hx : x ∈ tree.vars <;> simp [hx, eq_comm]

/-- The calculator for a product with a sum in parentheses. -/
def productOfSum : Calculator where
  source := "(x+12)* x"
  root := some
    (.operation .multiply (.operation .add (.var "x") (.const (floatOf "12"))) (.var "x"))
  values := .constant ["x", "x"] 0

/-- The sum in parentheses is one side of the product. -/
theorem sum_is_part_of_product :
    compile "(x+12)* x" = .ok productOfSum ∧
    Group "(x+12)* x".toList [] "x+12".toList "* x".toList ∧
    ∃ part, part.inorder = [.name "x", .operator .add, .number (floatOf "12")] ∧
      ∃ root, productOfSum.root = some root ∧
        PartAt part [] root [.operator .multiply, .name "x"] := by
  have hcompile : compile "(x+12)* x" = .ok productOfSum := rfl
  have hgroup : Group "(x+12)* x".toList [] "x+12".toList "* x".toList :=
    ⟨rfl, isBalanced_iff.mp rfl⟩
  obtain ⟨-, -, -, hparts, -⟩ := compile_keeps_tokens hcompile rfl
  obtain ⟨part, hpart, hat⟩ := hparts _ _ _ hgroup
  have hsum : tokens "x+12".toList = [.name "x", .operator .add, .number "12"] := by decide
  have hrest : tokens "* x".toList = [.operator .multiply, .name "x"] := by decide
  rw [hsum] at hpart
  rw [hrest] at hat
  exact ⟨hcompile, hgroup, part, hpart, _, rfl, hat⟩

end Calculator

end Worksheet
