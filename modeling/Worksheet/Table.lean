/-! # Tables by name

A table has one entry a name, in the order of the names. It holds the values of variables and the
files of a folder. What `find?` finds after each way of making a table is told by `find?_insert` and
`find?_constant`. A table made of pairs is `Sorted` (`sorted_ofList`), and so has no name twice. -/

namespace Worksheet

/-- Entries sorted by name. -/
structure Table (α : Type) where
  entries : List (String × α)
deriving DecidableEq, Repr

namespace Table

variable {α : Type}

/-- The table without entries. -/
def empty : Table α := ⟨[]⟩

/-- The value at a name. -/
def find? (t : Table α) (name : String) : Option α := t.entries.lookup name

/-- The entries with a value at the name, in place of the one there or before the greater names. -/
def insertEntry (name : String) (value : α) : List (String × α) → List (String × α)
  | [] => [(name, value)]
  | (key, old) :: rest =>
    if name = key then (name, value) :: rest
    else if name < key then (name, value) :: (key, old) :: rest
    else (key, old) :: insertEntry name value rest

/-- The table with a value at the name. -/
def insert (t : Table α) (name : String) (value : α) : Table α :=
  ⟨insertEntry name value t.entries⟩

/-- The table with the pairs of a list, later ones over earlier ones. -/
def ofList (pairs : List (String × α)) : Table α :=
  pairs.foldl (fun t p => t.insert p.1 p.2) empty

/-- The table with the same value at all the names. -/
def constant (names : List String) (value : α) : Table α :=
  ofList (names.map (·, value))

/-! ### Looking up after inserting -/

theorem lookup_cons_pair (key k : String) (v : α) (entries : List (String × α)) :
    ((k, v) :: entries).lookup key = if key = k then some v else entries.lookup key := by
  rw [List.lookup_cons]
  by_cases h : key = k
  · simp [h]
  · simp [h, beq_eq_false_iff_ne.mpr h]

theorem lookup_insertEntry (name key : String) (value : α) (entries : List (String × α)) :
    (insertEntry name value entries).lookup key =
      if key = name then some value else entries.lookup key := by
  induction entries with
  | nil => rw [insertEntry, lookup_cons_pair]
  | cons p entries ih =>
    obtain ⟨k, old⟩ := p
    unfold insertEntry
    split
    · next h =>
      subst h
      simp only [lookup_cons_pair]
      split <;> rfl
    · next h =>
      split
      · rw [lookup_cons_pair]
      · rw [lookup_cons_pair, lookup_cons_pair, ih]
        by_cases hk : key = k
        · rw [if_pos hk, if_pos hk, if_neg fun e : key = name => h (e.symm.trans hk)]
        · rw [if_neg hk, if_neg hk]

@[simp] theorem find?_empty (key : String) : (empty : Table α).find? key = none := rfl

@[simp] theorem find?_insert (t : Table α) (name key : String) (value : α) :
    (t.insert name value).find? key = if key = name then some value else t.find? key :=
  lookup_insertEntry name key value t.entries

theorem insertEntry_comm {name key : String} (h : name ≠ key) (v w : α)
    (entries : List (String × α)) :
    insertEntry key w (insertEntry name v entries) =
      insertEntry name v (insertEntry key w entries) := by
  induction entries with
  | nil => grind [insertEntry]
  | cons p entries ih =>
    obtain ⟨k, old⟩ := p
    -- either way each name comes in front of the first greater one
    grind [insertEntry]

/-- Values at different names may be inserted in either order. -/
theorem insert_comm {name key : String} (h : name ≠ key) (t : Table α) (v w : α) :
    (t.insert name v).insert key w = (t.insert key w).insert name v :=
  congrArg Table.mk (insertEntry_comm h v w t.entries)

theorem find?_foldl_insert (names : List String) (value : α) (t : Table α) (key : String) :
    (names.foldl (fun t name => t.insert name value) t).find? key =
      if key ∈ names then some value else t.find? key := by
  induction names generalizing t with
  | nil => rfl
  | cons name names ih =>
    rw [List.foldl_cons, ih, find?_insert]
    by_cases hn : key = name <;> by_cases hm : key ∈ names <;> simp [hn, hm]

@[simp] theorem find?_constant (names : List String) (value : α) (key : String) :
    (constant names value).find? key = if key ∈ names then some value else none := by
  rw [constant, ofList, List.foldl_map]
  exact find?_foldl_insert names value empty key

/-! ### The order of the entries -/

/-- The entries are in the order of their names, so that no name has two of them. -/
def Sorted (t : Table α) : Prop := t.entries.Pairwise (·.1 < ·.1)

theorem mem_of_mem_insertEntry {name : String} {value : α} {entries : List (String × α)}
    {p : String × α}
    (hp : p ∈ insertEntry name value entries) : p.1 = name ∨ p ∈ entries := by
  induction entries with
  | nil => exact Or.inl (congrArg Prod.fst (List.mem_singleton.mp hp))
  | cons first entries ih =>
    unfold insertEntry at hp
    split at hp
    · rcases List.mem_cons.mp hp with rfl | hp
      · exact Or.inl rfl
      · exact Or.inr (List.mem_cons_of_mem _ hp)
    · split at hp
      · rcases List.mem_cons.mp hp with rfl | hp
        · exact Or.inl rfl
        · exact Or.inr hp
      · rcases List.mem_cons.mp hp with rfl | hp
        · exact Or.inr List.mem_cons_self
        · exact (ih hp).imp_right (List.mem_cons_of_mem _)

theorem pairwise_insertEntry {entries : List (String × α)} (h : entries.Pairwise (·.1 < ·.1))
    (name : String)
    (value : α) : (insertEntry name value entries).Pairwise (·.1 < ·.1) := by
  induction entries with
  | nil => exact List.pairwise_singleton _ _
  | cons first entries ih =>
    obtain ⟨key, old⟩ := first
    obtain ⟨hfirst, hrest⟩ := List.pairwise_cons.mp h
    unfold insertEntry
    split
    · next heq =>
      subst heq
      exact List.pairwise_cons.mpr ⟨hfirst, hrest⟩
    · next hne =>
      split
      · next hlt =>
        refine List.pairwise_cons.mpr ⟨fun p hp => ?_, h⟩
        rcases List.mem_cons.mp hp with rfl | hp
        · exact hlt
        · exact String.lt_trans hlt (hfirst p hp)
      · next hge =>
        refine List.pairwise_cons.mpr ⟨fun p hp => ?_, ih hrest⟩
        rcases mem_of_mem_insertEntry hp with hp | hp
        · exact hp ▸ Std.lt_of_le_of_ne hge (Ne.symm hne)
        · exact hfirst p hp

theorem sorted_foldl_insert {t : Table α} (ht : t.Sorted) (pairs : List (String × α)) :
    (pairs.foldl (fun t p => t.insert p.1 p.2) t).Sorted := by
  induction pairs generalizing t with
  | nil => exact ht
  | cons p pairs ih => exact ih (pairwise_insertEntry ht p.1 p.2)

theorem sorted_ofList (pairs : List (String × α)) : (ofList pairs).Sorted :=
  sorted_foldl_insert (t := empty) List.Pairwise.nil pairs

namespace Sorted

variable {t : Table α}

theorem nodup_names (h : t.Sorted) : (t.entries.map Prod.fst).Nodup := by
  refine List.pairwise_map.mpr (List.Pairwise.imp (fun {p q} hlt heq => ?_) h)
  rw [heq] at hlt
  exact String.lt_irrefl _ hlt

/-- **What is found at a name** is what the entries have there. -/
theorem find?_eq_some_iff (h : t.Sorted) {name : String} {value : α} :
    t.find? name = some value ↔ (name, value) ∈ t.entries := by
  rw [find?, List.lookup_eq_some_iff]
  constructor
  · rintro ⟨l, r, heq, -⟩
    simp [heq]
  · intro hmem
    obtain ⟨l, r, heq⟩ := List.append_of_mem hmem
    refine ⟨l, r, heq, fun p hp => bne_iff_ne.mpr fun hname => ?_⟩
    rw [Sorted, heq, List.pairwise_append] at h
    have hlt := h.2.2 p hp _ List.mem_cons_self
    rw [hname] at hlt
    exact String.lt_irrefl _ hlt

end Sorted

end Table

end Worksheet
