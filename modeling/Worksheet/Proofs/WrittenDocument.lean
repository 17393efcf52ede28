import Mathlib.Data.List.Basic
import Mathlib.Data.List.TakeWhile
import Worksheet.Document.Reader

/-! # Written documents read back

The document written for a list of records is read as these records (`ofBytes?_markup`), if every
record has a text without line ends other than the line feed, and a name of letters and digits.

The proof goes through the three stages of reading. `Lexes s ts`: the symbols `s` are read as the
tokens `ts`, whatever follows them. `Builds ts ns`: within any open element, the tokens `ts` add the
nodes `ns` to it. Each piece of a document lexes and builds its own part, and parts are put together
by `Lexes.append`, `Builds.append` and `Builds.element`. Last, the nodes are read as records. -/

namespace Worksheet.Document

open Text Markup

/-! ### Texts that are kept -/

/-- The text has no line ends that reading turns into line feeds. -/
def Unbroken (s : List Char) : Prop := ∀ c ∈ s, c ≠ '\r' ∧ c ≠ '\u0085' ∧ c ≠ '\u2028'

theorem unbroken_nil : Unbroken [] := fun _ hc => absurd hc List.not_mem_nil

theorem Unbroken.concat {s : List Char} {c : Char} (hs : Unbroken s) (hc : Unbroken [c]) :
    Unbroken (s ++ [c]) := by
  intro d hd
  rcases List.mem_append.mp hd with h | h
  · exact hs d h
  · exact hc d h

theorem unifyLines_eq {s : List Char} (hs : Unbroken s) : unifyLines s = s := by
  induction s with
  | nil => rfl
  | cons c s ih =>
    obtain ⟨h1, h2, h3⟩ := hs c (by simp)
    have ih := ih fun d hd => hs d (by simp [hd])
    unfold unifyLines
    split
    · next h => exact absurd h (by simp)
    · next h => exact absurd (List.cons.inj h).1 h1
    · next h => exact absurd (List.cons.inj h).1 h1
    · next h =>
      obtain ⟨rfl, rfl⟩ := List.cons.inj h
      simp [h1, h2, h3, ih]

/-- A special character is written as a reference to it, any other as it is. -/
theorem escape_cons (c : Char) (s : List Char) :
    (∃ name, escape (c :: s) = '&' :: (name ++ ';' :: escape s) ∧ entity? name = some c ∧
      name.all Char.isAlpha = true) ∨
    (escape (c :: s) = c :: escape s ∧ c ≠ '<' ∧ c ≠ '&') := by
  by_cases h1 : c = '<'
  · subst h1; exact Or.inl ⟨['l', 't'], rfl, rfl, rfl⟩
  by_cases h2 : c = '>'
  · subst h2; exact Or.inl ⟨['g', 't'], rfl, rfl, rfl⟩
  by_cases h3 : c = '&'
  · subst h3; exact Or.inl ⟨['a', 'm', 'p'], rfl, rfl, rfl⟩
  · refine Or.inr ⟨?_, h1, h3⟩
    simp [escape, List.flatMap_cons]

theorem expand?_cons {c : Char} (hc : c ≠ '&') (s : List Char) :
    expand? (c :: s) = (expand? s).map (c :: ·) := by
  rw [expand?.eq_def]
  split
  · next h => exact absurd h (by simp)
  · next h => exact absurd (List.cons.inj h).1 hc
  · next h =>
    obtain ⟨rfl, rfl⟩ := List.cons.inj h
    rfl

theorem expand?_reference {s name rest : List Char} (h : cut? [';'] s = some (name, rest)) :
    expand? ('&' :: s) = (entity? name).bind fun c => (expand? rest).map (c :: ·) := by
  rw [expand?]
  split
  · next h' =>
    obtain ⟨rfl, rfl⟩ := Prod.mk.inj (Option.some.inj (h'.symm.trans h))
    cases entity? _ <;> cases expand? _ <;> rfl
  · next h' => exact absurd (h'.symm.trans h) (by simp)

theorem expand?_eq {s : List Char} (hs : '&' ∉ s) : expand? s = some s := by
  induction s with
  | nil => simp [expand?]
  | cons c s ih =>
    have hc : c ≠ '&' := fun h => hs (by simp [h])
    rw [expand?_cons hc, ih fun h => hs (by simp [h])]
    rfl

/-! ### Symbols into tokens -/

/-- The symbols are read as the tokens, whatever follows. -/
def Lexes (s : List Symbol) (ts : List Token) : Prop :=
  ∀ rest, tokens (s ++ rest) = ts ++ tokens rest

theorem Lexes.append {s s' : List Symbol} {ts ts' : List Token} (h : Lexes s ts)
    (h' : Lexes s' ts') : Lexes (s ++ s') (ts ++ ts') := by
  intro rest
  rw [List.append_assoc, h, h', List.append_assoc]

theorem tokens_of_next? {s r : List Symbol} {ts : List Token} (h : next? s = some (ts, r)) :
    tokens s = ts ++ tokens r := by
  rw [tokens]
  split
  · next h' => exact absurd (h'.symm.trans h) (by simp)
  · next h' =>
    obtain ⟨rfl, rfl⟩ := Prod.mk.inj (Option.some.inj (h'.symm.trans h))
    rfl

/-- The token of a run of symbols that stand for themselves. -/
def runTokens (u : List Symbol) : List Token := if u = [] then [] else [.text u]

theorem tokens_run {u : List Symbol} {x : Symbol} (hu : ∀ y ∈ u, isPlain y = true)
    (hx : isPlain x = false) (rest : List Symbol) :
    tokens (u ++ x :: rest) = runTokens u ++ tokens (x :: rest) := by
  unfold runTokens
  rcases u with _ | ⟨y, u⟩
  · rfl
  · have hy : isPlain y = true := hu y (by simp)
    have hnext : next? ((y :: u) ++ x :: rest) = some ([.text (y :: u)], x :: rest) := by
      unfold next?
      split
      · next h => exact absurd h (by simp)
      · next h =>
        rw [(List.cons.inj h).1] at hy
        exact absurd hy (by decide)
      · next h =>
        rw [(List.cons.inj h).1] at hy
        exact absurd hy (by decide)
      · rw [List.takeWhile_append_of_pos hu, List.dropWhile_append_of_pos hu]
        simp [hx]
    rw [tokens_of_next? hnext, if_neg (by simp)]

theorem isPlain_of_isAlpha {c : Char} (h : c.isAlpha = true) : isPlain (.char c) = true ∧
    c ≠ ';' := by
  refine ⟨?_, ?_⟩
  · simp only [isPlain, Bool.and_eq_true, bne_iff_ne, ne_eq, Symbol.char.injEq]
    refine ⟨?_, ?_⟩ <;> (rintro rfl; revert h; decide)
  · rintro rfl; revert h; decide

theorem strip?_append {α : Type} [DecidableEq α] (d s : List α) : strip? d (d ++ s) = some s := by
  induction d with
  | nil => rfl
  | cons a d ih => simpa [strip?] using ih

/-- What stands before a delimiter is found if the delimiter is not in it. -/
theorem cut?_append {α : Type} [DecidableEq α] {d : α} {l : List α} (h : d ∉ l) (r : List α) :
    cut? [d] (l ++ d :: r) = some (l, r) := by
  induction l with
  | nil => simp [cut?, strip?]
  | cons a l ih =>
    have ha : a ≠ d := fun e => h (by simp [e])
    simp [cut?, strip?, ha, ih fun e => h (by simp [e])]

theorem tokens_reference {name : List Char} (h : name.all Char.isAlpha = true)
    (rest : List Symbol) :
    tokens (.char '&' :: (name.map .char ++ .char ';' :: rest)) =
      .reference (name.map .char) :: tokens rest := by
  have hname : (name.map Symbol.char ++ Symbol.char ';' :: rest).takeWhile
      (fun x => isPlain x && x != .char ';') = name.map .char := by
    rw [List.takeWhile_append_of_pos]
    · simp
    · intro x hx
      obtain ⟨d, hd, rfl⟩ := List.mem_map.mp hx
      obtain ⟨h1, h2⟩ := isPlain_of_isAlpha (List.all_eq_true.mp h d hd)
      simp [h1, h2]
  have hstrip := strip?_append (name.map Symbol.char ++ [.char ';']) rest
  rw [List.append_assoc, List.singleton_append] at hstrip
  have hnext : next? (.char '&' :: (name.map .char ++ .char ';' :: rest)) =
      some ([.reference (name.map .char)], rest) := by
    simp only [next?, hname, hstrip]
    rfl
  exact tokens_of_next? hnext

/-! ### Tokens into nodes -/

/-- Within any open element, the tokens add the nodes to it. -/
def Builds (ts : List Token) (ns : List Node) : Prop :=
  ∀ (inner : OpenElement) (outer : List OpenElement) (rest : List Token),
    close? inner outer (ts ++ rest) =
      close? { inner with children := ns.reverse ++ inner.children } outer rest

theorem Builds.nil : Builds [] [] := fun _ _ _ => rfl

theorem Builds.append {ts ts' : List Token} {ns ns' : List Node} (h : Builds ts ns)
    (h' : Builds ts' ns') : Builds (ts ++ ts') (ns ++ ns') := by
  intro inner outer rest
  rw [List.append_assoc, h, h', List.reverse_append, List.append_assoc]

theorem Builds.element {ts : List Token} {ns : List Node} (h : Builds ts ns)
    (name attributes : List Symbol) :
    Builds (.opening name attributes :: (ts ++ [.closing name])) [.element name attributes ns] := by
  intro inner outer rest
  rw [List.cons_append, List.append_assoc]
  simp only [close?]
  rw [h]
  simp [close?, OpenElement.add, OpenElement.node]

/-- The node of a run. -/
def runNodes (u : List Char) : List Node := if u = [] then [] else [.text (u.map .char)]

theorem builds_run (u : List Char) : Builds (runTokens (u.map .char)) (runNodes u) := by
  intro inner outer rest
  unfold runTokens runNodes
  rcases u with _ | ⟨c, u⟩
  · rfl
  · simp [close?, OpenElement.add]

theorem builds_reference (name : List Symbol) : Builds [.reference name] [.reference name] := by
  intro inner outer rest
  simp [close?, OpenElement.add]

theorem text?_append {ns ns' : List Node} {s s' : List Char} (h : text? ns = some s)
    (h' : text? ns' = some s') : text? (ns ++ ns') = some (s ++ s') := by
  obtain ⟨l, hl, rfl⟩ := Option.map_eq_some_iff.mp h
  obtain ⟨l', hl', rfl⟩ := Option.map_eq_some_iff.mp h'
  simp [text?, List.mapM_append, hl, hl']

theorem text?_runNodes {u : List Char} (hu : Unbroken u) : text? (runNodes u) = some u := by
  unfold runNodes
  split
  · next h => subst h; rfl
  · simp [text?, Node.chars?, textOf?, characters?_map, unifyLines_eq hu]

theorem text?_reference {name : List Char} {c : Char} (h : entity? name = some c) :
    text? [.reference (name.map .char)] = some [c] := by
  simp [text?, Node.chars?, referenceText?, characters?_map, h]

/-- **A text that is written reads back**, `u` being the part of it that has been read but is not
yet a token. -/
theorem exists_nodes_escape {s : List Char} (hs : Unbroken s) {u : List Char} (hu : Unbroken u)
    (hp : ∀ y ∈ u.map Symbol.char, isPlain y = true) :
    ∃ ts ns, (∀ rest, tokens (u.map .char ++ (escape s).map .char ++ .char '<' :: rest) =
      ts ++ tokens (.char '<' :: rest)) ∧ Builds ts ns ∧ text? ns = some (u ++ s) := by
  have hnil : ∀ y ∈ [].map Symbol.char, isPlain y = true := fun _ hy => absurd hy List.not_mem_nil
  induction s generalizing u with
  | nil =>
    refine ⟨runTokens (u.map .char), runNodes u, fun rest => ?_, builds_run u, ?_⟩
    · simpa [escape] using tokens_run hp (by decide : isPlain (.char '<') = false) rest
    · rw [List.append_nil]; exact text?_runNodes hu
  | cons c s ih =>
    have hs' : Unbroken s := fun d hd => hs d (by simp [hd])
    rcases escape_cons c s with ⟨name, he, hc, hname⟩ | ⟨he, hc⟩
    -- a reference ends the run, and a new one begins behind it
    · obtain ⟨ts, ns, ht, hb, hn⟩ := ih hs' unbroken_nil hnil
      refine ⟨runTokens (u.map .char) ++ ([.reference (name.map .char)] ++ ts),
        runNodes u ++ ([.reference (name.map .char)] ++ ns), fun rest => ?_,
        (builds_run u).append ((builds_reference _).append hb), ?_⟩
      · have htok := tokens_run hp (by decide : isPlain (.char '&') = false)
          (name.map .char ++ .char ';' :: ((escape s).map .char ++ .char '<' :: rest))
        have := ht rest
        rw [List.map_nil, List.nil_append] at this
        rw [tokens_reference hname, this] at htok
        simpa [he] using htok
      · exact text?_append (text?_runNodes hu) (text?_append (text?_reference hc) hn)
    -- any other character makes the run longer
    · have hc' : Unbroken [c] := by
        intro d hd
        rw [List.mem_singleton.mp hd]
        exact hs c List.mem_cons_self
      have hp' : ∀ y ∈ (u ++ [c]).map Symbol.char, isPlain y = true := by
        intro y hy
        rw [List.map_append] at hy
        rcases List.mem_append.mp hy with h | h
        · exact hp y h
        · rw [List.mem_singleton.mp h]
          simp [isPlain, hc]
      obtain ⟨ts, ns, ht, hb, hn⟩ := ih hs' (hu.concat hc') hp'
      refine ⟨ts, ns, fun rest => ?_, hb, by simpa using hn⟩
      rw [← ht rest, he]
      simp

/-! ### Tags -/

theorem lexes_tag {s : List Symbol} {ts : List Token}
    (h : ∀ rest, next? (s ++ rest) = some (ts, rest)) :
    Lexes s ts := fun rest => tokens_of_next? (h rest)

theorem tag?_unquoted {a : List Symbol} (ha : ∀ x ∈ a, x ≠ .char '>' ∧ isQuote x = false)
    (s : List Symbol) : tag? none (a ++ s) = (tag? none s).map fun p => (a ++ p.1, p.2) := by
  induction a with
  | nil => simp
  | cons x a ih =>
    obtain ⟨hx, hq⟩ := ha x (by simp)
    simp only [List.cons_append, tag?, if_neg hx, hq, Bool.false_eq_true, if_false,
      ih fun y hy => ha y (by simp [hy]), Option.map_map]
    rfl

theorem tag?_quoted {b : List Symbol} (hb : .char '"' ∉ b) (s : List Symbol) :
    tag? (some (.char '"')) (b ++ .char '"' :: s) =
      (tag? none s).map fun p => (b ++ .char '"' :: p.1, p.2) := by
  induction b with
  | nil => simp [tag?]
  | cons x b ih =>
    have hx : x ≠ .char '"' := fun h => hb (by simp [h])
    simp only [List.cons_append, tag?, if_neg hx, ih fun h => hb (by simp [h]), Option.map_map]
    rfl

/-- What stands behind the name in the tag of a record. -/
def nameAttribute (name : List Symbol) : List Symbol := symbolsOf " name=\"" ++ name ++ [.char '"']

theorem lexes_cell {name : List Symbol} (h : .char '"' ∉ name) :
    Lexes (symbolsOf "<cell name=\"" ++ name ++ symbolsOf "\">")
      [.opening (symbolsOf "cell") (nameAttribute name)] := by
  refine lexes_tag fun rest => ?_
  have htag :
    tag? none (symbolsOf "cell name=" ++ .char '"' :: (name ++ .char '"' :: .char '>' :: rest)) =
      some (symbolsOf "cell" ++ nameAttribute name, rest) := by
    have hquote : ∀ s, tag? none (.char '"' :: s) =
        (tag? (some (.char '"')) s).map fun p => (.char '"' :: p.1, p.2) := fun _ => rfl
    have hend : tag? none (.char '>' :: rest) = some ([], rest) := rfl
    rw [tag?_unquoted (by decide), hquote, tag?_quoted h, hend]
    simp only [Option.map_some, Option.some.injEq, Prod.mk.injEq, and_true]
    rfl
  have hmark : next? (symbolsOf "<cell name=\"" ++ name ++ symbolsOf "\">" ++ rest) =
      (tag? none (symbolsOf "cell name=" ++ .char '"' ::
        (name ++ .char '"' :: .char '>' :: rest))).map
        fun p => (ofTag p.1, p.2) := by
    rw [List.append_assoc, List.append_assoc]
    rfl
  have hlast : (symbolsOf "cell" ++ nameAttribute name).getLast? ≠ some (.char '/') := by
    unfold nameAttribute
    rw [← List.append_assoc, List.getLast?_concat]
    decide
  rw [hmark, htag]
  simp only [Option.map_some, ofTag, if_neg hlast]
  simp [nameAttribute, symbolsOf, isGap, Symbol.is, isSpace]

/-! ### Nodes into records -/

/-- A record as it is written: it has a text without special line ends, and a name of letters and
digits. -/
structure Written (r : Record) (text : String) : Prop where
  text_eq : r.text = some text
  unbroken : Unbroken text.toList
  name : ∀ c ∈ r.name.toList, c.isAlphanum = true

theorem parts_nil : parts [] = [] := by rw [parts]; rfl

/-- The tag of an element with a name for an attribute has just this attribute. -/
theorem parts_nameAttribute {name : List Symbol} (h : .char '"' ∉ name) :
    parts (nameAttribute name) = [.proper ⟨symbolsOf "name", name⟩] := by
  have hcut : cut? [Symbol.char '"'] (name ++ [.char '"']) = some (name, []) := cut?_append h []
  have hpart : part (.char 'n') (symbolsOf "ame=\"" ++ name ++ [.char '"']) =
      (.proper ⟨symbolsOf "name", name⟩, []) := by
    simp [part, symbolsOf, isNamePart, isGap, Symbol.is, isSpace, quoted?, isQuote, hcut]
  have hdrop : (nameAttribute name).dropWhile isGap =
      .char 'n' :: (symbolsOf "ame=\"" ++ name ++ [.char '"']) := rfl
  rw [parts]
  split
  · next h' => exact absurd (h'.symm.trans hdrop) (by simp)
  · next h' =>
    obtain ⟨rfl, rfl⟩ := List.cons.inj (h'.symm.trans hdrop)
    rw [hpart, parts_nil]

section Attributes

variable {name : List Char} (h : '"' ∉ name)
include h

theorem parts_attribute : parts (nameAttribute (name.map .char)) =
    [.proper ⟨symbolsOf "name", name.map .char⟩] :=
  parts_nameAttribute (by simpa using h)

theorem attributes?_nameAttribute :
    attributes? (nameAttribute (name.map .char)) = some [⟨symbolsOf "name", name.map .char⟩] := by
  simp [attributes?, parts_attribute h, Part.attribute?]

omit h in
theorem attributeValue?_name (hamp : '&' ∉ name) :
    attributeValue? [⟨symbolsOf "name", name.map .char⟩] "name" = some (some name) := by
  have hkey : keyed? [⟨symbolsOf "name", name.map .char⟩] =
    some [("name".toList, name.map .char)] := rfl
  simp [attributeValue?, hkey, characters?_map, expand?_eq hamp]

theorem enter?_nameAttribute (s : Scopes) :
    s.enter? (nameAttribute (name.map .char)) = some ([] :: s) := by
  simp only [Scopes.enter?, parts_attribute h]
  rfl

theorem isNil_nameAttribute (s : Scopes) : s.isNil (nameAttribute (name.map .char)) = false := by
  simp only [Scopes.isNil, parts_attribute h]
  rfl

end Attributes

theorem enter?_nil (s : Scopes) : s.enter? [] = some ([] :: s) := by
  simp only [Scopes.enter?, parts_nil]
  rfl

theorem isNil_nil (s : Scopes) : s.isNil [] = false := by
  simp only [Scopes.isNil, parts_nil]
  rfl

/-- What is text alone brings no bindings into view. -/
theorem inView?_of_text? {ns : List Node} {s : List Char} (h : text? ns = some s)
    (within : Scopes) : inView? within ns = some within := by
  unfold inView?
  split
  · simp [text?, Node.chars?] at h
  · rfl

/-- The node that a written record is read as. -/
def StandsFor (n : Node) (r : Record) : Prop :=
  ∃ text ns, Written r text ∧ text? ns = some text.toList ∧
    n = .element (symbolsOf "cell") (nameAttribute (r.name.toList.map .char))
      [.element (symbolsOf "text") [] ns]

theorem Written.not_mem_name {r : Record} {text : String} (h : Written r text) {c : Char}
    (hc : c.isAlphanum = false) : c ∉ r.name.toList := by
  intro hm
  have := h.name c hm
  exact absurd (hc.symm.trans this) (by decide)

theorem exists_node_record {r : Record} {text : String} (h : Written r text) :
    ∃ ts n, Lexes ((recordMarkup r).map .char) ts ∧ Builds ts [n] ∧ StandsFor n r := by
  obtain ⟨ts, ns, ht, hb, hn⟩ := exists_nodes_escape h.unbroken unbroken_nil
    fun _ hy => absurd hy List.not_mem_nil
  have hquote : Symbol.char '"' ∉ r.name.toList.map Symbol.char := by
    simpa using h.not_mem_name (by decide : '"'.isAlphanum = false)
  have htext : Lexes (symbolsOf "<text>" ++ (escape text.toList).map .char ++ symbolsOf "</text>")
      (.opening (symbolsOf "text") [] :: (ts ++ [.closing (symbolsOf "text")])) := by
    intro rest
    have hopen : Lexes (symbolsOf "<text>") [.opening (symbolsOf "text") []] :=
      lexes_tag fun _ => rfl
    have hclose : Lexes (symbolsOf "</text>") [.closing (symbolsOf "text")] :=
      lexes_tag fun _ => rfl
    have hbody := ht (symbolsOf "/text>" ++ rest)
    have hfirst : Symbol.char '<' :: (symbolsOf "/text>" ++ rest) = symbolsOf "</text>" ++ rest :=
      rfl
    rw [hfirst, hclose] at hbody
    rw [List.append_assoc, List.append_assoc, hopen]
    simpa using hbody
  have hclose : Lexes (symbolsOf "</cell>") [.closing (symbolsOf "cell")] := lexes_tag fun _ => rfl
  refine ⟨_, _, ?_, ((hb.element (symbolsOf "text") []).element (symbolsOf "cell")
    (nameAttribute (r.name.toList.map .char))), text, ns, h, by simpa using hn, rfl⟩
  have hmarkup : recordMarkup r = "<cell name=\"".toList ++ r.name.toList ++ "\">".toList ++
      ("<text>".toList ++ escape text.toList ++ "</text>".toList) ++ "</cell>".toList := by
    unfold recordMarkup
    rw [h.text_eq]
    rfl
  rw [hmarkup]
  simp only [List.map_append]
  exact ((lexes_cell hquote).append htext).append hclose

/-- **A written record is read.** -/
theorem record?_of_standsFor {name attributes : List Symbol} {children : List Node} {r : Record}
    (h : StandsFor (.element name attributes children) r) (within : Scopes) :
    Document.record? within attributes children = some (r, within.tail) := by
  obtain ⟨text, ns, hw, hn, he⟩ := h
  simp only [Node.element.injEq] at he
  obtain ⟨rfl, rfl, rfl⟩ := he
  have hquote := hw.not_mem_name (by decide : '"'.isAlphanum = false)
  have hamp := hw.not_mem_name (by decide : '&'.isAlphanum = false)
  have hlocal : localName? (symbolsOf "text") = some "text" := rfl
  have hrec : r = ⟨r.name, some text⟩ := by rw [← hw.text_eq]
  simp only [Document.record?, attributes?_nameAttribute hquote, attributeValue?_name hamp,
    readChildren?,
    enter?_nil, hlocal, inView?_of_text? hn, isNil_nameAttribute hquote, isNil_nil, hn,
      Option.bind_eq_bind,
    Option.bind_some, Option.map_some, Draft.withText?, Draft.record?]
  simp
  exact hrec.symm

theorem records?_of_standsFor {ns : List Node} {records : List Record}
    (h : List.Forall₂ StandsFor ns records) (s : Scopes) {p : Place}
    (hp : p = .before ∨ p = .among (symbolsOf "cell")) : records? s p ns = some records := by
  induction h generalizing s p with
  | nil => rfl
  | @cons n r ns records hn _ ih =>
    have hn' := hn
    obtain ⟨text, ts, hw, -, rfl⟩ := hn'
    have hquote := hw.not_mem_name (by decide : '"'.isAlphanum = false)
    have hplace : p.record? (symbolsOf "cell") = some (some (.among (symbolsOf "cell"))) := by
      rcases hp with rfl | rfl
      · rfl
      · rfl
    simp only [records?, enter?_nameAttribute hquote, hplace, record?_of_standsFor hn,
      ih _ (Or.inr rfl),
      Option.bind_eq_bind, Option.bind_some]
    rfl

/-! ### Documents -/

theorem exists_nodes_records {records : List Record} (h : ∀ r ∈ records, ∃ text, Written r text) :
    ∃ ts ns, Lexes ((records.flatMap recordMarkup).map .char) ts ∧ Builds ts ns ∧
      List.Forall₂ StandsFor ns records := by
  induction records with
  | nil => exact ⟨[], [], fun _ => rfl, Builds.nil, .nil⟩
  | cons r records ih =>
    obtain ⟨text, hw⟩ := h r (by simp)
    obtain ⟨ts, n, ht, hb, hn⟩ := exists_node_record hw
    obtain ⟨ts', ns, ht', hb', hns⟩ := ih fun r' hr => h r' (by simp [hr])
    refine ⟨ts ++ ts', n :: ns, ?_, hb.append hb', .cons hn hns⟩
    rw [List.flatMap_cons, List.map_append]
    exact ht.append ht'

theorem ofSymbols?_of_tokens {s : List Symbol} {ts rest : List Token} {ns : List Node}
    {records : List Record}
    (hmark : dropMark s = s)
    (hs : tokens s = .opening (symbolsOf "spreadsheet") [] ::
    (ts ++ .closing (symbolsOf "spreadsheet") :: rest))
    (hb : Builds ts ns) (hns : List.Forall₂ StandsFor ns records) :
    ofSymbols? s = some records := by
  have hread : records? [[]] .before ns = some records := records?_of_standsFor hns _ (Or.inl rfl)
  have hroot : root? (tokens s) = some (.element (symbolsOf "spreadsheet") [] ns) := by
    rw [hs]
    simp only [root?]
    rw [hb]
    simp [close?, OpenElement.node]
  have hattr : attributes? [] = some [] := by simp [attributes?, parts_nil]
  simp only [ofSymbols?, hmark, hroot, ofRoot?, enter?_nil, hattr, Option.bind_eq_bind,
    Option.bind_some, hread]
  rfl

/-- **A written document is read back.** -/
theorem ofBytes?_markup {records : List Record} (h : ∀ r ∈ records, ∃ text, Written r text) :
    ofBytes? (encode (String.ofList (markup records))) = some records := by
  rw [ofBytes?, symbols_encode, symbolsOf, String.toList_ofList]
  rcases records with _ | ⟨r, records⟩
  · have ht : Lexes (symbolsOf "<spreadsheet/>")
        [.opening (symbolsOf "spreadsheet") [], .closing (symbolsOf "spreadsheet")] :=
          lexes_tag fun _ => rfl
    have htokens : tokens ((markup []).map .char) = .opening (symbolsOf "spreadsheet") [] ::
        ([] ++ .closing (symbolsOf "spreadsheet") :: tokens []) := ht []
    exact ofSymbols?_of_tokens rfl htokens Builds.nil .nil
  · obtain ⟨ts, ns, ht, hb, hns⟩ := exists_nodes_records h
    have hopen : Lexes (symbolsOf "<spreadsheet>") [.opening (symbolsOf "spreadsheet") []] :=
      lexes_tag fun _ => rfl
    have hclose : Lexes (symbolsOf "</spreadsheet>") [.closing (symbolsOf "spreadsheet")] :=
      lexes_tag fun _ => rfl
    have hpieces : (markup (r :: records)).map Symbol.char = symbolsOf "<spreadsheet>" ++
        ((r :: records).flatMap recordMarkup).map .char ++ symbolsOf "</spreadsheet>" := by
      simp only [markup, List.isEmpty_cons, if_false, Bool.false_eq_true, symbolsOf,
        List.map_append]
    have hall := ((hopen.append ht).append hclose) []
    rw [List.append_nil, ← hpieces] at hall
    have htokens : tokens ((markup (r :: records)).map .char) =
      .opening (symbolsOf "spreadsheet") [] ::
        (ts ++ .closing (symbolsOf "spreadsheet") :: tokens []) := by
      rw [hall, List.append_assoc]
      rfl
    exact ofSymbols?_of_tokens rfl htokens hb hns

end Worksheet.Document
