/-!
# Dictionaries

A finite map from strings, held in ascending order of the keys. The order is the lexicographic one
by code point, which is also the order of the UTF-8 forms. `get?_insert` is the law of the
structure: the last value written for a key is the one that is found. As the order is part of the
type, two dictionaries with the same entries are equal.
-/

namespace DerivedStats

/-- Looking up in a list of pairs tries the first pair, then the others. -/
theorem lookup_cons_eq_ite {κ α : Type} [DecidableEq κ] (k key : κ) (value : α)
    (pairs : List (κ × α)) :
    ((key, value) :: pairs).lookup k = if k = key then some value else pairs.lookup k := by
  rw [List.lookup_cons]
  by_cases h : k = key
  · simp [h]
  · rw [show (k == key) = false from beq_eq_false_iff_ne.mpr h, if_neg h]

/-- A map from strings with ascending keys. -/
structure Dictionary (α : Type) where
  pairs : List (String × α)
  ascending : pairs.Pairwise (·.1 < ·.1) := by simp

namespace Dictionary

variable {α : Type}

/-- A dictionary is determined by its pairs. -/
@[ext] theorem ext {a b : Dictionary α} (h : a.pairs = b.pairs) : a = b := by
  cases a; cases b; cases h; rfl

instance [DecidableEq α] : DecidableEq (Dictionary α) := fun a b =>
  if h : a.pairs = b.pairs then isTrue (ext h) else isFalse fun e => h (e ▸ rfl)

instance : Inhabited (Dictionary α) := ⟨{ pairs := [] }⟩

/-- The dictionary without entries. -/
def empty : Dictionary α where
  pairs := []

/-- Ascending pairs with the value of `key` set. -/
def insertPair (key : String) (value : α) : List (String × α) → List (String × α)
  | [] => [(key, value)]
  | (k, v) :: rest =>
    if key < k then (key, value) :: (k, v) :: rest
    else if key = k then (key, value) :: rest
    else (k, v) :: insertPair key value rest

/-- Insertion adds no pair but its own. -/
theorem mem_insertPair {key : String} {value : α} {pairs : List (String × α)} {p : String × α}
    (h : p ∈ insertPair key value pairs) : p = (key, value) ∨ p ∈ pairs := by
  induction pairs with
  | nil => simpa [insertPair] using h
  | cons q rest ih =>
    obtain ⟨k, v⟩ := q
    rw [insertPair] at h
    split at h
    · simpa using h
    · split at h
      · rcases List.mem_cons.mp h with h | h
        · exact .inl h
        · exact .inr (List.mem_cons_of_mem _ h)
      · rcases List.mem_cons.mp h with h | h
        · exact .inr (h ▸ List.mem_cons_self)
        · exact (ih h).imp_right (List.mem_cons_of_mem _)

/-- Insertion keeps the keys ascending. -/
theorem ascending_insertPair {key : String} {value : α} {pairs : List (String × α)}
    (h : pairs.Pairwise (·.1 < ·.1)) : (insertPair key value pairs).Pairwise (·.1 < ·.1) := by
  induction pairs with
  | nil => simp [insertPair]
  | cons q rest ih =>
    obtain ⟨k, v⟩ := q
    obtain ⟨hk, hrest⟩ := List.pairwise_cons.mp h
    rw [insertPair]
    split
    · next hlt =>
      refine List.pairwise_cons.mpr ⟨fun p hp => ?_, h⟩
      rcases List.mem_cons.mp hp with rfl | hp
      · exact hlt
      · exact String.lt_trans hlt (hk p hp)
    · next hge =>
      split
      · next heq => exact List.pairwise_cons.mpr ⟨fun p hp => heq ▸ hk p hp, hrest⟩
      · next hne =>
        refine List.pairwise_cons.mpr ⟨fun p hp => ?_, ih hrest⟩
        rcases mem_insertPair hp with rfl | hp
        · exact Decidable.byContradiction fun hkk =>
            hne (String.le_antisymm (String.not_lt.mp hkk) (String.not_lt.mp hge))
        · exact hk p hp

/-- The dictionary with the value of `key` set. -/
def insert (d : Dictionary α) (key : String) (value : α) : Dictionary α where
  pairs := insertPair key value d.pairs
  ascending := ascending_insertPair d.ascending

/-- The value of a key. -/
def get? (d : Dictionary α) (key : String) : Option α := d.pairs.lookup key

/-- The dictionary of a list of pairs; of pairs with one key the last counts. -/
def ofList (pairs : List (String × α)) : Dictionary α :=
  pairs.foldl (fun d p => d.insert p.1 p.2) empty

/-- The keys, in ascending order. -/
def keys (d : Dictionary α) : List String := d.pairs.map (·.1)

/-- The dictionary has no entries. -/
def isEmpty (d : Dictionary α) : Bool := d.pairs.isEmpty

/-- The same keys with other values. -/
def mapValues {β : Type} (f : String → α → β) (d : Dictionary α) : Dictionary β where
  pairs := d.pairs.map fun p => (p.1, f p.1 p.2)
  ascending := by
    rw [List.pairwise_map]
    exact d.ascending

/-- Mapping the values keeps the keys. -/
@[simp] theorem keys_mapValues {β : Type} (f : String → α → β) (d : Dictionary α) :
    (d.mapValues f).keys = d.keys := by
  simp [keys, mapValues]

/-- A lookup finds the value that was inserted last. -/
theorem lookup_insertPair (key : String) (value : α) (pairs : List (String × α)) (k : String) :
    (insertPair key value pairs).lookup k = if k = key then some value else pairs.lookup k := by
  induction pairs with
  | nil => simp only [insertPair, lookup_cons_eq_ite]
  | cons q rest ih =>
    obtain ⟨k', v⟩ := q
    rw [insertPair]
    split
    · rw [lookup_cons_eq_ite]
    · split
      · next heq =>
        subst heq
        simp only [lookup_cons_eq_ite]
        split <;> rfl
      · next hne =>
        rw [lookup_cons_eq_ite, ih, lookup_cons_eq_ite]
        by_cases h : k = k'
        · subst h
          rw [if_pos rfl, if_neg fun e => hne e.symm, if_pos rfl]
        · rw [if_neg h, if_neg h]

/-- **The last value written is found.** Other keys keep their values. -/
theorem get?_insert (d : Dictionary α) (key : String) (value : α) (k : String) :
    (d.insert key value).get? k = if k = key then some value else d.get? k :=
  lookup_insertPair key value d.pairs k

/-- What is found in a dictionary is one of its pairs. -/
theorem mem_of_get? {d : Dictionary α} {key : String} {value : α} (h : d.get? key = some value) :
    (key, value) ∈ d.pairs := by
  obtain ⟨before, behind, hpairs, -⟩ := List.lookup_eq_some_iff.mp h
  rw [hpairs]
  exact List.mem_append_right _ List.mem_cons_self

/-- Mapping the values and inserting can be exchanged. -/
theorem mapValues_insert {β : Type} (f : String → α → β) (d : Dictionary α) (key : String)
    (value : α) :
    (d.insert key value).mapValues f = (d.mapValues f).insert key (f key value) := by
  have hpairs : ∀ pairs : List (String × α),
      (insertPair key value pairs).map (fun p => (p.1, f p.1 p.2))
        = insertPair key (f key value) (pairs.map fun p => (p.1, f p.1 p.2)) := by
    intro pairs
    induction pairs with
    | nil => rfl
    | cons q rest ih =>
      obtain ⟨k, v⟩ := q
      rw [insertPair, List.map_cons, insertPair]
      split
      · rfl
      · split
        · rfl
        · rw [List.map_cons, ih]
  exact ext (hpairs d.pairs)

/-- Values can be mapped before a dictionary is made of its pairs, or in it. -/
theorem mapValues_ofList {β : Type} (f : String → α → β) (pairs : List (String × α)) :
    (ofList pairs).mapValues f = ofList (pairs.map fun p => (p.1, f p.1 p.2)) := by
  have hfold : ∀ d : Dictionary α,
      (pairs.foldl (fun d p => d.insert p.1 p.2) d).mapValues f
        = (pairs.map fun p => (p.1, f p.1 p.2)).foldl (fun d p => d.insert p.1 p.2)
            (d.mapValues f) := by
    induction pairs with
    | nil => exact fun d => rfl
    | cons p pairs ih =>
      intro d
      rw [List.foldl_cons, ih, mapValues_insert, List.map_cons, List.foldl_cons]
  exact hfold empty

end Dictionary

end DerivedStats
