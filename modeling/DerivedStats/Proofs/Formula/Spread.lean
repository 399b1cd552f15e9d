import DerivedStats.Formula.Samples
import DerivedStats.Proofs.Statistic.Tables

/-!
# The spread of sample lists

What is found in the spread of sample lists. A closed statistic with one sample keeps it, unless a
marked sample of some open statistic takes its name (`Samples.get?_spread`). An open statistic that
no other one is like is matched by its own samples, in their order (`Samples.matches_spread`): the
markers tell them apart, and the table lists new statistics in the order in which they come.
-/

namespace DerivedStats

/-! ## Markers -/

/-- Different samples get different markers. -/
theorem sampleMarker_injective {i j : Nat} (h : sampleMarker i = sampleMarker j) : i = j := by
  have hdigits : Nat.toDigits 10 i = Nat.toDigits 10 j := by
    rw [← Nat.toList_repr, ← Nat.toList_repr]
    exact congrArg String.toList ((String.append_right_inj _).mp h)
  rw [← Nat.ofDigitChars_ten_toDigits (n := i), hdigits, Nat.ofDigitChars_ten_toDigits]

namespace Statistic

/-- The markers of an open statistic can be told from its marked forms. -/
theorem replaceWildcards_injective {s : Statistic} (h : s.isWildcarded = true) {a b : String}
    (hab : s.replaceWildcards a = s.replaceWildcards b) : a = b := by
  obtain ⟨p, hp, hwildcard⟩ := List.any_eq_true.mp h
  have hdimensions := congrArg (fun t => t.dimensions.pairs) hab
  simp only [replaceWildcards, Dictionary.mapValues] at hdimensions
  have hvalue := List.map_inj_left.mp hdimensions p hp
  rw [if_pos (by simpa using hwildcard), if_pos (by simpa using hwildcard)] at hvalue
  exact (Prod.mk.inj hvalue).2

end Statistic

namespace Samples

variable {samples : Samples}

/-- The marked samples of a statistic are its samples, each under its marker. -/
theorem mem_marked {s : Statistic} {list : List Float} {e : Statistic × Float} :
    e ∈ marked s list ↔
      ∃ i, ∃ h : i < list.length, e = (s.replaceWildcards (sampleMarker i), list[i]) := by
  rw [marked, List.mem_mapIdx]
  simp only [eq_comm]

/-- The samples of an open statistic get names of their own. -/
theorem nodup_marked {s : Statistic} (hopen : s.isWildcarded = true) (list : List Float) :
    ((marked s list).map (·.1)).Nodup := by
  refine List.pairwise_iff_getElem.mpr fun i j hi hj hlt heq => ?_
  simp only [marked, List.getElem_map, List.getElem_mapIdx] at heq
  have := sampleMarker_injective (Statistic.replaceWildcards_injective hopen heq)
  omega

theorem map_snd_marked (s : Statistic) (list : List Float) : (marked s list).map (·.2) = list :=
  List.ext_getElem (by simp [marked]) fun i hi hi' => by simp [marked]

/-- No marked sample of another statistic takes the name of this one. -/
def KeepApart (samples : Samples) (s : Statistic) : Prop :=
  ∀ k list, samples.get? k = some list → ∀ i < list.length,
    k.replaceWildcards (sampleMarker i) = s → k = s

/-- **A closed statistic keeps its sample.** -/
theorem get?_spread {s : Statistic} {x : Float} (hclosed : s.isWildcarded = false)
    (hget : samples.get? s = some [x]) (hapart : samples.KeepApart s) :
    samples.spread.get? s = some x := by
  have hsame : ∀ i, s.replaceWildcards (sampleMarker i) = s :=
    fun i => Statistic.replaceWildcards_of_closed hclosed _
  refine Table.get?_ofList ?_ fun e he hs => ?_
  · refine List.mem_map.mpr ⟨(s, x), List.mem_flatMap.mpr ⟨(s, [x]), ?_, ?_⟩, rfl⟩
    · exact Table.get?_eq_some_iff.mp hget
    · exact mem_marked.mpr ⟨0, by simp, by rw [hsame]; rfl⟩
  · obtain ⟨⟨k, list⟩, hentry, hmarked⟩ := List.mem_flatMap.mp he
    obtain ⟨i, hi, rfl⟩ := mem_marked.mp hmarked
    have hlist := Table.get?_eq_some_iff.mpr hentry
    obtain rfl := hapart k list hlist i hi hs
    obtain rfl : [x] = list := Option.some.inj (hget.symm.trans hlist)
    simp

/-- **An open statistic is matched by its samples.** -/
theorem matches_spread {w : Statistic} {list : List Float} (hopen : w.isWildcarded = true)
    (hget : samples.get? w = some list)
    (halone : ∀ k ∈ samples.statistics, w.sameKeys k = true → k = w) :
    (samples.spread.entries.filter fun e => w.sameKeys e.1).map (·.2) = list := by
  have hmarked : ∀ e ∈ marked w list, w.sameKeys e.1 = true := by
    intro e he
    obtain ⟨i, -, rfl⟩ := mem_marked.mp he
    exact Statistic.sameKeys_replaceWildcards w _
  have hothers : ∀ {k : Statistic} {l : List Float}, (k, l) ∈ samples.entries → k ≠ w →
      (marked k l).filter (fun e => w.sameKeys e.1) = [] := by
    intro k l hk hne
    refine List.filter_eq_nil_iff.mpr fun e he hkeys => hne ?_
    obtain ⟨i, hi, rfl⟩ := mem_marked.mp he
    refine halone k (List.mem_map.mpr ⟨(k, l), hk, rfl⟩) ?_
    rw [Statistic.sameKeys_iff] at hkeys ⊢
    simpa [Statistic.replaceWildcards] using hkeys
  have hfilter : (samples.entries.flatMap fun e => marked e.1 e.2).filter
      (fun e => w.sameKeys e.1) = marked w list := by
    obtain ⟨before, behind, hentries, -⟩ := List.lookup_eq_some_iff.mp hget
    have hdistinct := samples.distinct
    rw [hentries, List.map_append, List.map_cons, List.nodup_append, List.nodup_cons] at hdistinct
    obtain ⟨-, ⟨hbehind, -⟩, hbefore⟩ := hdistinct
    have hnone : ∀ {es : List (Statistic × List Float)},
        (∀ e ∈ es, e ∈ samples.entries ∧ e.1 ≠ w) →
        (es.flatMap fun e => marked e.1 e.2).filter (fun e => w.sameKeys e.1) = [] := by
      intro es hes
      rw [List.filter_flatMap, List.flatMap_eq_nil_iff]
      exact fun e he => hothers (hes e he).1 (hes e he).2
    rw [hentries, List.flatMap_append, List.flatMap_cons, List.filter_append, List.filter_append,
      hnone fun e he => ⟨by simp [hentries, he], hbefore _ (List.mem_map_of_mem he) w (by simp)⟩,
      hnone fun e he => ⟨by simp [hentries, he], fun hw => hbehind (List.mem_map.mpr ⟨e, he, hw⟩)⟩,
      List.filter_eq_self.mpr hmarked, List.nil_append, List.append_nil]
  -- the marked samples are new statistics, so the table keeps them in their order
  rw [spread, Table.filter_ofList (by rw [hfilter]; exact nodup_marked hopen list), hfilter,
    map_snd_marked]

end Samples

end DerivedStats
