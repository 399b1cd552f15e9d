import DerivedStats.Proofs.Formula.Spread
import Mathlib.Data.List.Nodup

/-!
# What becomes of the samples

Of a sample list for an open statistic every sample is kept, with a marked statistic of its own; of
a list for a closed statistic the last sample is kept (`Samples.kept`). An expansion is a table of
what is kept of the lists.

If no statistic has the value of a marker among its dimensions, then the lists do not get in each
other's way, and every sample that is kept is met by the mentions with its keys exactly once
(`Samples.expand_reaches`). In general two lists may keep samples under one statistic. Then the list
that comes later wins, so the expansion depends on the order of the lists, unless both samples are
the same (`Samples.expand_order_iff`).
-/

namespace DerivedStats

namespace Statistic

/-- No dimension has the value of a marker. -/
def IsUnmarked (s : Statistic) : Prop :=
  ∀ p ∈ s.dimensions.pairs, ∀ index, p.2 ≠ sampleMarker index

/-- A marker that is not among the values shows where the wildcard was. -/
theorem eq_of_marked_value {x y a b : String} (hy : y ≠ a) (hx : x ≠ b)
    (h : (if x = wildcard then a else x) = if y = wildcard then b else y) : x = y := by
  by_cases hxopen : x = wildcard
  · by_cases hyopen : y = wildcard
    · rw [hxopen, hyopen]
    · rw [if_pos hxopen, if_neg hyopen] at h
      exact absurd h.symm hy
  · by_cases hyopen : y = wildcard
    · rw [if_neg hxopen, if_pos hyopen] at h
      exact absurd h hx
    · rwa [if_neg hxopen, if_neg hyopen] at h

/-- Markers that the statistics do not have themselves show where the wildcards were. -/
theorem eq_of_replaceWildcards {s t : Statistic} {a b : String}
    (ha : ∀ p ∈ t.dimensions.pairs, p.2 ≠ a) (hb : ∀ p ∈ s.dimensions.pairs, p.2 ≠ b)
    (h : s.replaceWildcards a = t.replaceWildcards b) : s = t := by
  have hpairs : ∀ {ps qs : List (String × String)}, (∀ q ∈ qs, q.2 ≠ a) → (∀ p ∈ ps, p.2 ≠ b) →
      ps.map (fun p => (p.1, if p.2 = wildcard then a else p.2))
        = qs.map (fun q => (q.1, if q.2 = wildcard then b else q.2)) → ps = qs := by
    intro ps
    induction ps with
    | nil =>
      intro qs _ _ h
      exact (List.map_eq_nil_iff.mp h.symm).symm
    | cons p ps ih =>
      intro qs ha hb h
      cases qs with
      | nil => cases h
      | cons q qs =>
        rw [List.map_cons, List.map_cons, List.cons.injEq] at h
        obtain ⟨hkey, hvalue⟩ := Prod.mk.inj h.1
        have hsame := eq_of_marked_value (ha q (by simp)) (hb p (by simp)) hvalue
        have hrest := ih (fun q hq => ha q (by simp [hq])) (fun p hp => hb p (by simp [hp])) h.2
        rw [Prod.ext hkey hsame, hrest]
  obtain ⟨category, name, dimensions⟩ := s
  obtain ⟨category', name', dimensions'⟩ := t
  simp only [replaceWildcards, mk.injEq] at h
  obtain ⟨rfl, rfl, hdimensions⟩ := h
  obtain rfl : dimensions = dimensions' :=
    Dictionary.ext (hpairs ha hb (congrArg Dictionary.pairs hdimensions))
  rfl

end Statistic

namespace Samples

/-! ## What is kept of a list -/

/-- The single values that are kept of one sample list: all samples of an open statistic, and the
last one of a closed statistic. -/
def kept (s : Statistic) (list : List Float) : List (Statistic × Float) :=
  if s.isWildcarded then marked s list else (list.getLast?.map (s, ·)).toList

/-- Of a list for a closed statistic, its last sample is kept and nothing else. -/
theorem mem_kept_of_closed {s : Statistic} (hclosed : s.isWildcarded = false) {list : List Float}
    {p : Statistic × Float} : p ∈ kept s list ↔ ∃ x, list.getLast? = some x ∧ p = (s, x) := by
  rw [kept, hclosed, if_neg Bool.false_ne_true, Option.mem_toList, Option.map_eq_some_iff]
  exact exists_congr fun x => and_congr_right fun _ => eq_comm

/-- What is kept has the name of its statistic with a marker. -/
theorem exists_marker {s : Statistic} {list : List Float} {p : Statistic × Float}
    (h : p ∈ kept s list) : ∃ i, p.1 = s.replaceWildcards (sampleMarker i) := by
  cases hopen : s.isWildcarded with
  | false =>
    obtain ⟨x, -, rfl⟩ := (mem_kept_of_closed hopen).mp h
    exact ⟨0, (Statistic.replaceWildcards_of_closed hopen _).symm⟩
  | true =>
    rw [kept, if_pos hopen] at h
    obtain ⟨i, -, rfl⟩ := mem_marked.mp h
    exact ⟨i, rfl⟩

/-- No statistic keeps two samples of one list. -/
theorem nodup_kept (s : Statistic) (list : List Float) : ((kept s list).map (·.1)).Nodup := by
  cases hopen : s.isWildcarded with
  | false =>
    rw [kept, hopen]
    cases list.getLast? <;> simp
  | true =>
    rw [kept, if_pos hopen]
    exact nodup_marked hopen list

/-- An open statistic keeps the whole list, and a closed one its last sample. -/
theorem map_snd_kept (s : Statistic) (list : List Float) :
    (kept s list).map (·.2) = if s.isWildcarded then list else list.getLast?.toList := by
  unfold kept
  split
  · exact map_snd_marked s list
  · cases list.getLast? <;> rfl

/-- What is kept of a list is what is found in the table of its samples. -/
theorem get?_ofList_marked (s : Statistic) (list : List Float) (k : Statistic) :
    (Table.ofList (marked s list)).get? k = (Table.ofList (kept s list)).get? k := by
  cases hopen : s.isWildcarded with
  | true => rw [kept, if_pos hopen]
  | false =>
    have hmarked : ∀ list, marked s list = list.map (s, ·) := fun list =>
      List.ext_getElem (by simp [marked]) fun i hi hi' => by
        simp [marked, Statistic.replaceWildcards_of_closed hopen]
    rw [hmarked, kept, hopen]
    rcases List.eq_nil_or_concat list with rfl | ⟨before, x, rfl⟩
    · rfl
    · -- the samples before the last one have the same name
      rw [List.concat_eq_append, List.map_append, List.map_singleton, Table.get?_ofList_append,
        List.getLast?_concat]
      show _ = (Table.ofList [(s, x)]).get? k
      rw [Table.get?_ofList_singleton]
      split
      · rfl
      · next hk =>
        refine Option.eq_none_iff_forall_ne_some.mpr fun y hy => hk ?_
        obtain ⟨z, -, hz⟩ := List.mem_map.mp (Table.mem_of_get?_ofList hy)
        exact (Prod.mk.inj hz).1.symm

/-! ## What is kept of all lists -/

/-- The single values that are kept of all sample lists. -/
def keptOf (entries : List (Statistic × List Float)) : List (Statistic × Float) :=
  entries.flatMap fun e => kept e.1 e.2

/-- The spread is the table of what is kept. -/
theorem get?_spread_kept (samples : Samples) (k : Statistic) :
    samples.spread.get? k = (Table.ofList (keptOf samples.entries)).get? k := by
  have hall : ∀ entries : List (Statistic × List Float),
      (Table.ofList (entries.flatMap fun e => marked e.1 e.2)).get? k
        = (Table.ofList (keptOf entries)).get? k := by
    intro entries
    induction entries with
    | nil => rfl
    | cons e entries ih =>
      rw [keptOf, List.flatMap_cons, List.flatMap_cons, Table.get?_ofList_append,
        Table.get?_ofList_append, ih, get?_ofList_marked, keptOf]
  exact hall samples.entries

/-- What is kept of the lists is what is kept of one of them. -/
theorem mem_keptOf {entries : List (Statistic × List Float)} {p : Statistic × Float} :
    p ∈ keptOf entries ↔ ∃ e ∈ entries, p ∈ kept e.1 e.2 :=
  List.mem_flatMap

/-! ## Every sample once -/

/-- If the statistics are unmarked, then what is kept has distinct names. -/
theorem nodup_keptOf {samples : Samples} (h : ∀ s ∈ samples.statistics, s.IsUnmarked) :
    ((keptOf samples.entries).map (·.1)).Nodup := by
  rw [keptOf, List.map_flatMap, List.nodup_flatMap]
  refine ⟨fun e _ => nodup_kept e.1 e.2, ?_⟩
  have hdistinct := List.pairwise_map.mp samples.distinct
  refine hdistinct.imp_of_mem fun {e e'} he he' hne => ?_
  rintro name hname hname'
  obtain ⟨p, hp, rfl⟩ := List.mem_map.mp hname
  obtain ⟨p', hp', hsame⟩ := List.mem_map.mp hname'
  obtain ⟨i, hi⟩ := exists_marker hp
  obtain ⟨j, hj⟩ := exists_marker hp'
  -- one name means one statistic behind the markers
  refine hne (Statistic.eq_of_replaceWildcards (fun q hq => ?_) (fun q hq => ?_)
    (hi.symm.trans (hsame.symm.trans hj)))
  · exact h e'.1 (List.mem_map_of_mem he') q hq i
  · exact h e.1 (List.mem_map_of_mem he) q hq j

/-- The spread of unmarked statistics lists what is kept, in some order. -/
theorem entries_spread_perm {samples : Samples} (h : ∀ s ∈ samples.statistics, s.IsUnmarked) :
    samples.spread.entries.Perm (keptOf samples.entries) := by
  have hnodup := nodup_keptOf h
  refine (List.perm_ext_iff_of_nodup samples.spread.distinct.of_map hnodup.of_map).mpr ?_
  rintro ⟨k, x⟩
  rw [← Table.get?_eq_some_iff, get?_spread_kept, Table.get?_eq_some_iff,
    Table.entries_ofList hnodup]

/-- The samples that reach a mention of an open statistic: of the lists whose statistics have the
same keys, all samples if the statistic is open, and the last one if it is closed. -/
def reaching (samples : Samples) (w : Statistic) : List Float :=
  (samples.entries.filter fun e => w.sameKeys e.1).flatMap fun e =>
    if e.1.isWildcarded then e.2 else e.2.getLast?.toList

/-- A marker does not change the keys. -/
theorem sameKeys_kept {s w : Statistic} {list : List Float} {p : Statistic × Float}
    (h : p ∈ kept s list) : w.sameKeys p.1 = w.sameKeys s := by
  obtain ⟨i, hi⟩ := exists_marker h
  rw [hi, Bool.eq_iff_iff, Statistic.sameKeys_iff, Statistic.sameKeys_iff]
  simp [Statistic.replaceWildcards]

/-- The statistics with the keys of `w` keep their samples in the order of the lists. -/
theorem filter_keptOf (w : Statistic) (entries : List (Statistic × List Float)) :
    ((keptOf entries).filter fun p => w.sameKeys p.1).map (·.2)
      = (entries.filter fun e => w.sameKeys e.1).flatMap fun e =>
          if e.1.isWildcarded then e.2 else e.2.getLast?.toList := by
  induction entries with
  | nil => rfl
  | cons e entries ih =>
    rw [keptOf, List.flatMap_cons, List.filter_append, List.map_append, ← keptOf, ih,
      List.filter_cons]
    cases hkeys : w.sameKeys e.1 with
    | true =>
      rw [List.filter_eq_self.mpr fun p hp => (sameKeys_kept hp).trans hkeys, map_snd_kept,
        if_pos rfl, List.flatMap_cons]
    | false =>
      have hnone : (kept e.1 e.2).filter (fun p => w.sameKeys p.1) = [] :=
        List.filter_eq_nil_iff.mpr fun p hp => by simp [sameKeys_kept hp, hkeys]
      rw [hnone, if_neg Bool.false_ne_true]
      rfl

/-- An unmarked closed statistic keeps its last sample. -/
theorem get?_spread_of_closed {samples : Samples} (h : ∀ s ∈ samples.statistics, s.IsUnmarked)
    {q : Statistic} (hclosed : q.isWildcarded = false) (hunmarked : q.IsUnmarked) :
    samples.spread.get? q = (samples.get? q).bind List.getLast? := by
  refine Option.ext fun x => ?_
  rw [get?_spread_kept, Table.get?_eq_some_iff, Table.entries_ofList (nodup_keptOf h),
    Option.bind_eq_some_iff, mem_keptOf]
  constructor
  · rintro ⟨⟨s, list⟩, he, hx⟩
    obtain ⟨i, hi⟩ := exists_marker hx
    have hs : s.IsUnmarked := h s (List.mem_map_of_mem he)
    obtain rfl : s = q := by
      refine Statistic.eq_of_replaceWildcards (fun p hp => hunmarked p hp i)
        (fun p hp => hs p hp i) ?_
      rw [← hi, Statistic.replaceWildcards_of_closed hclosed]
    obtain ⟨y, hy, hsame⟩ := (mem_kept_of_closed hclosed).mp hx
    obtain rfl := (Prod.mk.inj hsame).2
    exact ⟨list, Table.get?_eq_some_iff.mpr he, hy⟩
  · rintro ⟨list, hlist, hx⟩
    exact ⟨(q, list), Table.get?_eq_some_iff.mp hlist, (mem_kept_of_closed hclosed).mpr ⟨x, hx, rfl⟩⟩

/-- **Every sample reaches the mentions with its keys once**, if no statistic of the lists has the
value of a marker. A mention of an open statistic has all samples of the open statistics with its
keys and the last one of each closed one, and a mention of an unmarked closed statistic has its last
sample, or zero. -/
theorem expand_reaches {samples : Samples} {derived : Statistic}
    (hderived : derived.isWildcarded = false) (h : ∀ s ∈ samples.statistics, s.IsUnmarked) :
    ∃ values, samples.expand derived = .ok (values, .empty)
      ∧ ∀ category span m,
        ((m.resolve category).isWildcarded = true →
          ∃ xs, (Expr.mention span m).evaluate ⟨category, values, .empty⟩ = .ok (.sequence xs)
            ∧ xs.Perm (samples.reaching (m.resolve category)))
        ∧ ((m.resolve category).isWildcarded = false → (m.resolve category).IsUnmarked →
          (Expr.mention span m).evaluate ⟨category, values, .empty⟩
            = .ok (.scalar (((samples.get? (m.resolve category)).bind List.getLast?).getD 0.0))) := by
  refine ⟨samples.spread, by rw [expand, hderived]; rfl, fun category span m => ⟨?_, ?_⟩⟩
  · intro hopen
    refine ⟨(samples.spread.entries.filter fun e => (m.resolve category).sameKeys e.1).map (·.2),
      ?_, ?_⟩
    · rw [Expr.evaluate, Scope.read, hopen]
      rfl
    · rw [reaching, ← filter_keptOf]
      exact ((entries_spread_perm h).filter _).map _
  · intro hclosed hunmarked
    rw [Expr.evaluate, Scope.read, hclosed, ← get?_spread_of_closed h hclosed hunmarked]
    rfl

/-- Two patterns of wildcards, and a value that is a marker without its digits. -/
theorem expand_reaches_patterns :
    ∃ values, Samples.expand (.ofList [(⟨"c", "w", .ofList [("k", "*"), ("m", "*")]⟩, [1.0, 2.0]),
          (⟨"c", "w", .ofList [("k", "a"), ("m", "*")]⟩, [3.0, 4.0]),
          (⟨"c", "w", .ofList [("k", "a"), ("m", "sample_")]⟩, [5.0, 6.0])]) ⟨"c", "x", .empty⟩
        = .ok (values, .empty)
      ∧ (∃ xs, (Expr.mention ⟨0, 0⟩ ⟨none, "w", [⟨"m", "*"⟩, ⟨"k", "b"⟩]⟩).evaluate
            ⟨"c", values, .empty⟩ = .ok (.sequence xs)
          ∧ xs.Perm [1.0, 2.0, 3.0, 4.0, 6.0])
      ∧ (Expr.mention ⟨0, 0⟩ ⟨none, "w", [⟨"m", "sample_"⟩, ⟨"k", "a"⟩]⟩).evaluate
          ⟨"c", values, .empty⟩ = .ok (.scalar 6.0) := by
  obtain ⟨samples, hsamples⟩ : ∃ samples : Samples, samples =
    .ofList [(⟨"c", "w", .ofList [("k", "*"), ("m", "*")]⟩, [1.0, 2.0]),
      (⟨"c", "w", .ofList [("k", "a"), ("m", "*")]⟩, [3.0, 4.0]),
      (⟨"c", "w", .ofList [("k", "a"), ("m", "sample_")]⟩, [5.0, 6.0])] := ⟨_, rfl⟩
  have hshort : ∀ s : Statistic, (∀ p ∈ s.dimensions.pairs, p.2.length ≤ 7) → s.IsUnmarked := by
    intro s hs p hp index hmarker
    have hlength := hs p hp
    have hdigits : 0 < (Nat.toDigits 10 index).length :=
      List.length_pos_of_ne_nil Nat.toDigits_ne_nil
    rw [← Nat.toList_repr, String.length_toList] at hdigits
    rw [hmarker, sampleMarker, String.length_append] at hlength
    exact absurd (Nat.lt_add_of_pos_right hdigits) (Nat.not_lt.mpr hlength)
  have hunmarked : ∀ s ∈ samples.statistics, s.IsUnmarked := by
    intro s hs
    refine hshort s ?_
    revert s
    subst hsamples
    decide +kernel
  obtain ⟨values, hexpand, hread⟩ :=
    @expand_reaches samples ⟨"c", "x", .empty⟩ (by decide +kernel) hunmarked
  obtain ⟨xs, hxs, hperm⟩ :=
    (hread "c" ⟨0, 0⟩ ⟨none, "w", [⟨"m", "*"⟩, ⟨"k", "b"⟩]⟩).1 (by decide +kernel)
  have hlast := (hread "c" ⟨0, 0⟩ ⟨none, "w", [⟨"m", "sample_"⟩, ⟨"k", "a"⟩]⟩).2
    (by decide +kernel) (hshort _ (by decide +kernel))
  have hreaching : samples.reaching ((⟨none, "w", [⟨"m", "*"⟩, ⟨"k", "b"⟩]⟩ : Mention).resolve "c")
      = [1.0, 2.0, 3.0, 4.0, 6.0] := by
    subst hsamples
    decide +kernel
  have hget : samples.get? ((⟨none, "w", [⟨"m", "sample_"⟩, ⟨"k", "a"⟩]⟩ : Mention).resolve "c")
      = some [5.0, 6.0] := by
    subst hsamples
    decide +kernel
  rw [hreaching] at hperm
  rw [hget] at hlast
  subst hsamples
  exact ⟨values, hexpand, ⟨xs, hxs, hperm⟩, hlast⟩

/-! ## The order of the lists -/

/-- Where two lists keep samples under one statistic, the samples are the same. -/
def Consistent (samples : Samples) : Prop :=
  ∀ p ∈ keptOf samples.entries, ∀ p' ∈ keptOf samples.entries, p.1 = p'.1 → p.2 = p'.2

/-- A list that comes last keeps its samples. -/
theorem get?_spread_last {samples : Samples} {before : List (Statistic × List Float)}
    {e : Statistic × List Float} (hentries : samples.entries = before ++ [e])
    {p : Statistic × Float} (hp : p ∈ kept e.1 e.2) : samples.spread.get? p.1 = some p.2 := by
  have hlast : (Table.ofList (kept e.1 e.2)).get? p.1 = some p.2 := by
    rw [Table.get?_eq_some_iff, Table.entries_ofList (nodup_kept e.1 e.2)]
    exact hp
  have hkept : keptOf (before ++ [e]) = keptOf before ++ kept e.1 e.2 := by
    rw [keptOf, List.flatMap_append, List.flatMap_singleton, keptOf]
  rw [get?_spread_kept, hentries, hkept, Table.get?_ofList_append, hlast, Option.some_or]

/-- Each list can be made the last one. -/
theorem exists_last (samples : Samples) {e : Statistic × List Float} (he : e ∈ samples.entries) :
    ∃ (samples' : Samples) (before : List (Statistic × List Float)),
      samples'.entries.Perm samples.entries ∧ samples'.entries = before ++ [e] := by
  obtain ⟨before, behind, hentries⟩ := List.append_of_mem he
  have hperm : ((before ++ behind) ++ [e]).Perm samples.entries := by
    rw [hentries]
    exact (List.perm_append_singleton e (before ++ behind)).trans List.perm_middle.symm
  exact ⟨⟨(before ++ behind) ++ [e], (hperm.map _).nodup_iff.mpr samples.distinct⟩,
    before ++ behind, hperm, rfl⟩

/-- There is a sole sample for each statistic if each list has one sample. -/
theorem sole_eq_ok {entries : List (Statistic × List Float)} {values : List (Statistic × Float)} :
    sole entries = .ok values ↔
      (∀ e ∈ entries, e.2.length = 1) ∧ values = entries.map fun e => (e.1, e.2.headD 0.0) := by
  induction entries generalizing values with
  | nil => simp [sole, eq_comm]
  | cons e entries ih =>
    obtain ⟨s, list⟩ := e
    match list with
    | [] => simp [sole]
    | x :: y :: list => simp [sole]
    | [x] =>
      rw [sole]
      constructor
      · intro h
        cases hrest : sole entries with
        | error m =>
          rw [hrest] at h
          cases h
        | ok rest =>
          rw [hrest] at h
          obtain rfl := Except.ok.inj h
          obtain ⟨hlengths, rfl⟩ := ih.mp hrest
          exact ⟨by simpa using hlengths, rfl⟩
      · rintro ⟨hlengths, rfl⟩
        rw [ih.mpr ⟨fun e he => hlengths e (by simp [he]), rfl⟩]
        rfl

/-- With one sample for each statistic, the same is found in every order. -/
theorem sole_perm {samples samples' : Samples} (hperm : samples'.entries.Perm samples.entries)
    {values : List (Statistic × Float)} (h : sole samples.entries = .ok values) :
    ∃ values', sole samples'.entries = .ok values'
      ∧ ∀ s, (Table.ofList values').get? s = (Table.ofList values).get? s := by
  obtain ⟨hlengths, rfl⟩ := sole_eq_ok.mp h
  refine ⟨_, sole_eq_ok.mpr ⟨fun e he => hlengths e (hperm.mem_iff.mp he), rfl⟩,
    Table.get?_ofList_perm (hperm.map _) ?_⟩
  simp only [List.forall_mem_map]
  intro e he e' he' hsame
  rw [List.inj_on_of_nodup_map samples'.distinct he he' hsame]

/-- The same is found in the spreads of all orders if and only if no two lists keep different samples
under one statistic. -/
theorem spread_order_iff {samples : Samples} :
    (∀ samples' : Samples, samples'.entries.Perm samples.entries →
      ∀ s, samples'.spread.get? s = samples.spread.get? s) ↔ samples.Consistent := by
  constructor
  · -- the list that keeps a sample can come last, and then this sample is found
    intro horder
    have hfound : ∀ p ∈ keptOf samples.entries, samples.spread.get? p.1 = some p.2 := by
      intro p hp
      obtain ⟨e, he, hp⟩ := mem_keptOf.mp hp
      obtain ⟨samples', before, hperm, hentries⟩ := exists_last samples he
      rw [← horder samples' hperm, get?_spread_last hentries hp]
    intro p hp p' hp' hsame
    have hp := hfound p hp
    rw [hsame, hfound p' hp'] at hp
    exact (Option.some.inj hp).symm
  · intro hconsistent samples' hperm s
    rw [get?_spread_kept, get?_spread_kept]
    exact (Table.get?_ofList_perm (hperm.symm.flatMap_right _) hconsistent s).symm

/-- **When the order of the lists does not matter.** An expansion that succeeds gives the same table
and the same placeholders in every order of the sample lists, if and only if the derived statistic is
open or no two lists keep different samples under one statistic. -/
theorem expand_order_iff {samples : Samples} {derived : Statistic} {values : Values}
    {placeholders : Placeholders} (h : samples.expand derived = .ok (values, placeholders)) :
    (∀ samples' : Samples, samples'.entries.Perm samples.entries →
      ∃ values', samples'.expand derived = .ok (values', placeholders)
        ∧ ∀ s, values'.get? s = values.get? s) ↔
      derived.isWildcarded = true ∨ samples.Consistent := by
  cases hopen : derived.isWildcarded with
  | true =>
    refine ⟨fun _ => .inl rfl, fun _ samples' hperm => ?_⟩
    rw [expand, if_pos hopen] at h ⊢
    cases hsole : sole samples.entries with
    | error m =>
      rw [hsole] at h
      cases h
    | ok entries =>
      rw [hsole] at h
      obtain ⟨rfl, rfl⟩ := Prod.mk.inj (Except.ok.inj h)
      obtain ⟨entries', hsole', hget⟩ := sole_perm hperm hsole
      exact ⟨_, by rw [hsole']; rfl, hget⟩
  | false =>
    have hexpand : ∀ samples : Samples, samples.expand derived = .ok (samples.spread, .empty) :=
      fun samples => by rw [expand, hopen, if_neg Bool.false_ne_true]
    obtain ⟨rfl, rfl⟩ := Prod.mk.inj (Except.ok.inj ((hexpand samples).symm.trans h))
    rw [or_iff_right Bool.false_ne_true, ← spread_order_iff]
    refine forall_congr' fun samples' => forall_congr' fun _ => ?_
    constructor
    · rintro ⟨values', hvalues', hget⟩
      obtain ⟨rfl, -⟩ := Prod.mk.inj (Except.ok.inj ((hexpand samples').symm.trans hvalues'))
      exact hget
    · exact fun hget => ⟨_, hexpand samples', hget⟩

/-- The first sample of an open statistic takes the name of a closed one. -/
theorem expand_order_collision :
    ∃ values, Samples.expand (.ofList [(⟨"c", "w", .ofList [("m", "*")]⟩, [5.0]),
          (⟨"c", "w", .ofList [("m", "sample_0")]⟩, [1.0])]) ⟨"c", "x", .empty⟩
        = .ok (values, .empty)
      ∧ ¬ ∀ samples' : Samples,
        samples'.entries.Perm [(⟨"c", "w", .ofList [("m", "*")]⟩, [5.0]),
          (⟨"c", "w", .ofList [("m", "sample_0")]⟩, [1.0])] →
        ∃ values', samples'.expand ⟨"c", "x", .empty⟩ = .ok (values', .empty)
          ∧ ∀ s, values'.get? s = values.get? s := by
  obtain ⟨samples, hsamples⟩ : ∃ samples : Samples, samples =
    .ofList [(⟨"c", "w", .ofList [("m", "*")]⟩, [5.0]),
      (⟨"c", "w", .ofList [("m", "sample_0")]⟩, [1.0])] := ⟨_, rfl⟩
  have hentries : samples.entries = [(⟨"c", "w", .ofList [("m", "*")]⟩, [5.0]),
      (⟨"c", "w", .ofList [("m", "sample_0")]⟩, [1.0])] := by
    subst hsamples
    decide +kernel
  have hkept : keptOf samples.entries = [(⟨"c", "w", .ofList [("m", "sample_0")]⟩, 5.0),
      (⟨"c", "w", .ofList [("m", "sample_0")]⟩, 1.0)] := by
    rw [hentries]
    decide +kernel
  have hexpand : samples.expand ⟨"c", "x", .empty⟩ = .ok (samples.spread, .empty) := rfl
  rw [← hsamples, ← hentries]
  refine ⟨samples.spread, hexpand, fun horder => ?_⟩
  rcases (expand_order_iff hexpand).mp horder with hopen | hconsistent
  · exact absurd hopen (by decide +kernel)
  · have hsame : (5.0 : Float) = 1.0 :=
      hconsistent (⟨"c", "w", .ofList [("m", "sample_0")]⟩, 5.0) (by simp [hkept])
        (⟨"c", "w", .ofList [("m", "sample_0")]⟩, 1.0) (by simp [hkept]) rfl
    exact absurd hsame (by decide +kernel)

end Samples

end DerivedStats
