import DerivedStats.Text.Dictionary

/-!
# Dictionaries of lists

A dictionary that is made of a list of pairs has no other pairs (`Dictionary.mem_of_mem_ofList`),
and its own pairs make it again (`Dictionary.ofList_pairs`).
-/

namespace DerivedStats

namespace Dictionary

variable {α : Type}

/-- Whatever is in a dictionary of a list was in the list. -/
theorem mem_of_mem_ofList {pairs : List (String × α)} {p : String × α}
    (h : p ∈ (ofList pairs).pairs) : p ∈ pairs := by
  have hfold : ∀ d : Dictionary α,
      p ∈ (pairs.foldl (fun d p => d.insert p.1 p.2) d).pairs → p ∈ pairs ∨ p ∈ d.pairs := by
    clear h
    induction pairs with
    | nil => exact fun d hd => .inr hd
    | cons q pairs ih =>
      intro d hd
      rcases ih (d.insert q.1 q.2) hd with hmem | hmem
      · exact .inl (List.mem_cons_of_mem _ hmem)
      · rcases mem_insertPair hmem with rfl | hmem
        · exact .inl List.mem_cons_self
        · exact .inr hmem
  exact (hfold empty h).resolve_right List.not_mem_nil

/-- A key above all others is entered at the end. -/
theorem insertPair_of_forall_lt {key : String} {value : α} {pairs : List (String × α)}
    (h : ∀ p ∈ pairs, p.1 < key) : insertPair key value pairs = pairs ++ [(key, value)] := by
  induction pairs with
  | nil => rfl
  | cons q rest ih =>
    obtain ⟨k, v⟩ := q
    have hlt : k < key := h (k, v) List.mem_cons_self
    have hnot : ¬ key < k := fun hgt => String.lt_irrefl k (String.lt_trans hlt hgt)
    have hne : key ≠ k := fun heq => String.lt_irrefl k (heq ▸ hlt)
    rw [insertPair, if_neg hnot, if_neg hne, ih fun p hp => h p (List.mem_cons_of_mem _ hp)]
    rfl

/-- The pairs of a dictionary make it again. -/
theorem ofList_pairs (d : Dictionary α) : ofList d.pairs = d := by
  -- entering ascending pairs, each above what is there already, puts them behind it
  have hfold : ∀ (pairs : List (String × α)) (d : Dictionary α),
      (d.pairs ++ pairs).Pairwise (·.1 < ·.1) →
        (pairs.foldl (fun d p => d.insert p.1 p.2) d).pairs = d.pairs ++ pairs := by
    intro pairs
    induction pairs with
    | nil => exact fun d _ => (List.append_nil _).symm
    | cons p pairs ih =>
      intro d h
      have hbelow : ∀ q ∈ d.pairs, q.1 < p.1 := fun q hq =>
        (List.pairwise_append.mp h).2.2 q hq p List.mem_cons_self
      have hinsert : (d.insert p.1 p.2).pairs = d.pairs ++ [p] := insertPair_of_forall_lt hbelow
      rw [List.foldl_cons, ih (d.insert p.1 p.2) (by simpa [hinsert] using h), hinsert]
      simp
  exact ext (hfold d.pairs empty d.ascending)

end Dictionary

end DerivedStats
