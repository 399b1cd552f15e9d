import DerivedStats.Statistic.Table

/-!
# Tables of lists

What is found in a table that was made of a list of entries. Of entries for one statistic the last
one counts, so the entries at the end of the list are asked first (`Table.get?_ofList_append`). If
all entries for a statistic agree then this is what is found, and their order does not matter
(`Table.get?_ofList_perm`). The table has the entries of distinct statistics in their order
(`Table.entries_ofList`). Two tables have a union (`Table.union`), which asks the first one first.
-/

namespace DerivedStats

namespace Table

variable {α : Type}

/-- A value is found under a statistic if this entry is in the table. -/
theorem get?_eq_some_iff {t : Table α} {k : Statistic} {x : α} :
    t.get? k = some x ↔ (k, x) ∈ t.entries := by
  obtain ⟨entries, hdistinct⟩ := t
  unfold get?
  simp only
  induction entries with
  | nil => simp
  | cons e entries ih =>
    obtain ⟨key, y⟩ := e
    rw [List.map_cons, List.nodup_cons] at hdistinct
    rw [lookup_cons_eq_ite, List.mem_cons]
    by_cases h : k = key
    · rw [if_pos h]
      refine ⟨fun hx => .inl (by rw [h, Option.some.inj hx]), fun hx => ?_⟩
      rcases hx with hx | hx
      · rw [(Prod.mk.inj hx).2]
      · exact absurd (List.mem_map.mpr ⟨(k, x), hx, h⟩) hdistinct.1
    · rw [if_neg h, ih hdistinct.2]
      exact ⟨.inr, fun hx => hx.resolve_left fun he => h (Prod.mk.inj he).1⟩

/-- The order of the entries does not matter for a single statistic. -/
theorem get?_perm {t t' : Table α} (hperm : t.entries.Perm t'.entries) (k : Statistic) :
    t.get? k = t'.get? k := by
  refine Option.ext fun x => ?_
  rw [get?_eq_some_iff, get?_eq_some_iff, hperm.mem_iff]

/-- Only statistics of the table have a value. -/
theorem isNone_get? {t : Table α} {k : Statistic} :
    (t.get? k).isNone = true ↔ k ∉ t.statistics := by
  rw [Option.isNone_iff_eq_none, Option.eq_none_iff_forall_ne_some, statistics, List.mem_map]
  constructor
  · rintro hnone ⟨⟨s, x⟩, hentry, rfl⟩
    exact hnone x (get?_eq_some_iff.mpr hentry)
  · intro hmem x hx
    exact hmem ⟨(k, x), get?_eq_some_iff.mp hx, rfl⟩

/-- What is put into a table is found before what was in it. -/
theorem get?_foldl_insert (entries : List (Statistic × α)) (t : Table α) (k : Statistic) :
    (entries.foldl (fun t e => t.insert e.1 e.2) t).get? k
      = ((ofList entries).get? k).or (t.get? k) := by
  induction entries generalizing t with
  | nil => rfl
  | cons e entries ih =>
    rw [ofList, List.foldl_cons, List.foldl_cons, ih, ih (empty.insert e.1 e.2), Option.or_assoc,
      get?_insert, get?_insert]
    by_cases hk : k = e.1
    · rw [if_pos hk, if_pos hk, Option.some_or]
    · rw [if_neg hk, if_neg hk]
      rfl

/-- The entries behind the others are asked first. -/
theorem get?_ofList_append (entries entries' : List (Statistic × α)) (k : Statistic) :
    (ofList (entries ++ entries')).get? k
      = ((ofList entries').get? k).or ((ofList entries).get? k) := by
  rw [ofList, List.foldl_append, get?_foldl_insert, ← ofList]

theorem get?_ofList_singleton (e : Statistic × α) (k : Statistic) :
    (ofList [e]).get? k = if k = e.1 then some e.2 else none :=
  get?_insert empty e.1 e.2 k

/-- What is found in a table of a list was an entry of the list. -/
theorem mem_of_get?_ofList {entries : List (Statistic × α)} {k : Statistic} {x : α}
    (h : (ofList entries).get? k = some x) : (k, x) ∈ entries := by
  induction entries with
  | nil => cases h
  | cons e entries ih =>
    rw [← List.singleton_append, get?_ofList_append, Option.or_eq_some_iff] at h
    rcases h with h | ⟨-, h⟩
    · exact List.mem_cons_of_mem _ (ih h)
    · rw [get?_ofList_singleton] at h
      split at h
      · next hk =>
        obtain rfl := Option.some.inj h
        rw [hk]
        exact List.mem_cons_self
      · cases h

/-- Every statistic of the list has a value in the table. -/
theorem exists_get?_ofList {entries : List (Statistic × α)} {k : Statistic}
    (h : k ∈ entries.map (·.1)) : ∃ x, (ofList entries).get? k = some x := by
  induction entries with
  | nil => cases h
  | cons e entries ih =>
    rw [← List.singleton_append, get?_ofList_append]
    cases hk : (ofList entries).get? k with
    | some x => exact ⟨x, rfl⟩
    | none =>
      rcases List.mem_cons.mp h with rfl | h
      · exact ⟨e.2, by rw [get?_ofList_singleton, if_pos rfl]; rfl⟩
      · obtain ⟨x, hx⟩ := ih h
        rw [hx] at hk
        cases hk

/-- If all entries for a statistic have one value, then this is what is found. -/
theorem get?_ofList {entries : List (Statistic × α)} {k : Statistic} {x : α}
    (hmem : k ∈ entries.map (·.1)) (h : ∀ e ∈ entries, e.1 = k → e.2 = x) :
    (ofList entries).get? k = some x := by
  obtain ⟨y, hy⟩ := exists_get?_ofList hmem
  rw [hy, ← h _ (mem_of_get?_ofList hy) rfl]

/-- **The order of entries does not matter** if those for one statistic have one value. -/
theorem get?_ofList_perm {entries entries' : List (Statistic × α)} (hperm : entries.Perm entries')
    (h : ∀ e ∈ entries, ∀ e' ∈ entries, e.1 = e'.1 → e.2 = e'.2) (k : Statistic) :
    (ofList entries).get? k = (ofList entries').get? k := by
  cases hk : (ofList entries').get? k with
  | none =>
    refine Option.eq_none_iff_forall_ne_some.mpr fun x hx => ?_
    have hmem : k ∈ entries'.map (·.1) :=
      List.mem_map.mpr ⟨(k, x), hperm.mem_iff.mp (mem_of_get?_ofList hx), rfl⟩
    obtain ⟨y, hy⟩ := exists_get?_ofList hmem
    rw [hk] at hy
    cases hy
  | some x =>
    have hmem : (k, x) ∈ entries := hperm.mem_iff.mpr (mem_of_get?_ofList hk)
    exact get?_ofList (List.mem_map.mpr ⟨_, hmem, rfl⟩) fun e he hek => h e he _ hmem hek

/-- Putting an entry changes only the part of the table that the entry belongs to. -/
theorem filter_putEntry (p : Statistic → Bool) (s : Statistic) (value : α)
    (entries : List (Statistic × α)) :
    (putEntry s value entries).filter (fun e => p e.1) =
      if p s then putEntry s value (entries.filter fun e => p e.1)
      else entries.filter fun e => p e.1 := by
  induction entries with
  | nil => cases h : p s <;> simp [putEntry, h]
  | cons e entries ih =>
    obtain ⟨key, old⟩ := e
    rw [putEntry]
    by_cases hkey : key = s
    · subst hkey
      cases h : p key <;> simp [putEntry, h]
    · rw [if_neg hkey, List.filter_cons, ih, List.filter_cons]
      cases h : p s <;> cases h' : p key <;> simp [putEntry, hkey]

/-- An entry for a new statistic comes last. -/
theorem putEntry_of_not_mem {s : Statistic} {value : α} {entries : List (Statistic × α)}
    (h : s ∉ entries.map (·.1)) : putEntry s value entries = entries ++ [(s, value)] := by
  induction entries with
  | nil => rfl
  | cons e entries ih =>
    obtain ⟨key, old⟩ := e
    rw [List.map_cons, List.mem_cons, not_or] at h
    rw [putEntry, if_neg fun hkey => h.1 hkey.symm, ih h.2]
    rfl

/-- Entries for distinct statistics of one kind are found in their order. -/
theorem filter_ofList {p : Statistic → Bool} {entries : List (Statistic × α)}
    (h : ((entries.filter fun e => p e.1).map (·.1)).Nodup) :
    (ofList entries).entries.filter (fun e => p e.1) = entries.filter fun e => p e.1 := by
  have hfold : ∀ t : Table α,
      ((t.entries.filter fun e => p e.1) ++ entries.filter fun e => p e.1).map (·.1) |>.Nodup →
      (entries.foldl (fun t e => t.insert e.1 e.2) t).entries.filter (fun e => p e.1)
        = (t.entries.filter fun e => p e.1) ++ entries.filter fun e => p e.1 := by
    clear h
    induction entries with
    | nil => exact fun t _ => (List.append_nil _).symm
    | cons e entries ih =>
      intro t h
      rw [List.foldl_cons]
      have hinsert := filter_putEntry p e.1 e.2 t.entries
      cases hp : p e.1 with
      | false =>
        rw [hp] at hinsert
        rw [List.filter_cons_of_neg (by simp [hp])] at h ⊢
        have := ih (t.insert e.1 e.2)
        rw [insert, hinsert] at this
        exact this h
      | true =>
        -- an entry of the kind is new, so it comes last
        rw [hp] at hinsert
        rw [List.filter_cons_of_pos (by simp [hp])] at h ⊢
        have hnew : e.1 ∉ (t.entries.filter fun e => p e.1).map (·.1) := by
          intro hmem
          rw [List.map_append, List.nodup_append] at h
          exact h.2.2 _ hmem _ (by simp) rfl
        rw [if_pos rfl, putEntry_of_not_mem hnew] at hinsert
        have := ih (t.insert e.1 e.2)
        rw [insert, hinsert, List.append_assoc, List.singleton_append] at this
        exact this h
  exact (hfold empty h).trans (List.nil_append _)

/-- The table of entries for distinct statistics has these entries. -/
theorem entries_ofList {entries : List (Statistic × α)} (h : (entries.map (·.1)).Nodup) :
    (ofList entries).entries = entries := by
  have hall : ∀ entries : List (Statistic × α), entries.filter (fun _ => true) = entries :=
    fun _ => List.filter_eq_self.mpr fun _ _ => rfl
  have hfilter := @filter_ofList α (fun _ => true) entries (by rwa [hall])
  rwa [hall, hall] at hfilter

/-- Both tables in one. Where both have a value, the one of the first table counts. -/
def union (t t' : Table α) : Table α := ofList (t'.entries ++ t.entries)

/-- In a union the first table is asked first. -/
theorem get?_union (t t' : Table α) (k : Statistic) :
    (t.union t').get? k = (t.get? k).or (t'.get? k) := by
  have hself : ∀ t : Table α, (ofList t.entries).get? k = t.get? k := fun t => by
    rw [get?, entries_ofList t.distinct, get?]
  rw [union, get?_ofList_append, hself, hself]

end Table

end DerivedStats
