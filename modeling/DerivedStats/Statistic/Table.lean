import DerivedStats.Statistic.Basic

/-!
# Tables

A finite map from statistics, in the order in which the statistics were first entered. That order is
the one in which the values of a wildcard are met. `get?_insert` is the law of the structure, and
`statistics_insert` says that writing a known statistic keeps its place.
-/

namespace DerivedStats

/-- A map from statistics, in the order of entry. -/
structure Table (α : Type) where
  entries : List (Statistic × α)
  distinct : (entries.map (·.1)).Nodup := by simp

namespace Table

variable {α : Type}

/-- The table without entries. -/
def empty : Table α where
  entries := []

instance : Inhabited (Table α) := ⟨empty⟩

/-- The statistics of the table in the order of entry. -/
def statistics (t : Table α) : List Statistic := t.entries.map (·.1)

/-- The number of statistics. -/
def size (t : Table α) : Nat := t.entries.length

/-- The value of a statistic. -/
def get? (t : Table α) (s : Statistic) : Option α := t.entries.lookup s

/-- Entries with the value of `s` set: in its place if it has one, else at the end. -/
def putEntry (s : Statistic) (value : α) : List (Statistic × α) → List (Statistic × α)
  | [] => [(s, value)]
  | (key, old) :: rest =>
    if key = s then (s, value) :: rest else (key, old) :: putEntry s value rest

/-- Putting an entry keeps the keys in order; a new key comes last. -/
theorem map_fst_putEntry (s : Statistic) (value : α) (entries : List (Statistic × α)) :
    (putEntry s value entries).map (·.1)
      = if s ∈ entries.map (·.1) then entries.map (·.1) else entries.map (·.1) ++ [s] := by
  induction entries with
  | nil => simp [putEntry]
  | cons entry rest ih =>
    obtain ⟨key, old⟩ := entry
    rw [putEntry]
    by_cases h : key = s
    · simp [h]
    · have hs : s ≠ key := fun e => h e.symm
      rw [if_neg h, List.map_cons, ih]
      by_cases hmem : s ∈ rest.map (·.1)
      · rw [if_pos hmem, if_pos (by rw [List.map_cons]; exact List.mem_cons_of_mem _ hmem)]
        rfl
      · rw [if_neg hmem, if_neg (by rw [List.map_cons, List.mem_cons]; exact not_or.mpr ⟨hs, hmem⟩)]
        rfl

/-- The table with the value of a statistic set. -/
def insert (t : Table α) (s : Statistic) (value : α) : Table α where
  entries := putEntry s value t.entries
  distinct := by
    rw [map_fst_putEntry]
    split
    · exact t.distinct
    · next hmem =>
      refine List.nodup_append.mpr ⟨t.distinct, by simp, ?_⟩
      rintro a ha b hb rfl
      exact hmem (List.mem_singleton.mp hb ▸ ha)

/-- The table of a list of entries; of entries for one statistic the last counts. -/
def ofList (entries : List (Statistic × α)) : Table α :=
  entries.foldl (fun t e => t.insert e.1 e.2) empty

/-- A lookup finds the value that was put last. -/
theorem lookup_putEntry (s : Statistic) (value : α) (entries : List (Statistic × α))
    (k : Statistic) :
    (putEntry s value entries).lookup k = if k = s then some value else entries.lookup k := by
  induction entries with
  | nil => simp only [putEntry, lookup_cons_eq_ite]
  | cons entry rest ih =>
    obtain ⟨key, old⟩ := entry
    rw [putEntry]
    split
    · next hkey =>
      subst hkey
      simp only [lookup_cons_eq_ite]
      split <;> rfl
    · next hkey =>
      rw [lookup_cons_eq_ite, ih, lookup_cons_eq_ite]
      by_cases h : k = key
      · subst h
        rw [if_pos rfl, if_neg hkey, if_pos rfl]
      · rw [if_neg h, if_neg h]

/-- **The last value written is found.** Other statistics keep their values. -/
theorem get?_insert (t : Table α) (s : Statistic) (value : α) (k : Statistic) :
    (t.insert s value).get? k = if k = s then some value else t.get? k :=
  lookup_putEntry s value t.entries k

/-- Writing a statistic that the table knows keeps the order; a new one comes last. -/
theorem statistics_insert (t : Table α) (s : Statistic) (value : α) :
    (t.insert s value).statistics
      = if s ∈ t.statistics then t.statistics else t.statistics ++ [s] :=
  map_fst_putEntry s value t.entries

/-- The entries in the order of their statistics. -/
def sorted (t : Table α) : List (Statistic × α) :=
  t.entries.mergeSort fun a b => (Statistic.order a.1 b.1).isLE

end Table

/-- One number for each statistic; a statistic without one counts as zero. -/
abbrev Values := Table Float

/-- Several numbers for each statistic. -/
abbrev Samples := Table (List Float)

end DerivedStats
