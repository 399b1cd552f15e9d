import DerivedStats.Proofs.Formula.Stepwise

/-!
# What a substitution leaves to be read

The text of a substitution is a definition again, and it depends on exactly what was not
substituted: it defines the same statistic, also where that one has samples itself, and it reads
the statistics that the first definition reads, without those that have samples, in the same order
(`Formula.dependencies_substitute`). Three traversals have to agree for this: the one that replaces
mentions, the one that writes and reads back, and the one that collects. Each is followed along the
mentions of the tree from left to right: filling in leaves out the mentions that have samples
(`Expr.mentions_fill`), and the tree that is read back has the mentions of the tree that was written
(`Expr.mentions_reading`). One statistic can be mentioned in several ways, so what is left out is
decided about statistics and not about mentions (`firstOccurrences_filter`).
-/

namespace DerivedStats

/-- Leaving out elements does not change the places of the others. -/
theorem firstOccurrences_filter {α : Type} [DecidableEq α] (p : α → Bool) (as : List α) :
    firstOccurrences (as.filter p) = (firstOccurrences as).filter p := by
  induction as with
  | nil => rfl
  | cons a as ih =>
    rw [firstOccurrences, List.filter_cons, List.filter_cons, List.filter_filter]
    by_cases ha : p a = true
    · rw [if_pos ha, if_pos ha, firstOccurrences, ih, List.filter_filter]
      simp only [Bool.and_comm]
    · rw [if_neg ha, if_neg ha, ih]
      -- where `a` is left out, leaving it out once more changes nothing
      refine List.filter_congr fun b _ => ?_
      by_cases hb : b = a
      · subst hb
        simp [ha]
      · simp [hb]

namespace Expr

variable {value : Mention → Option Expr}

/-- **Filling in leaves out the mentions that have a value**, if there is no mention in the values. -/
theorem mentions_fill (hvalue : ∀ m e inside, value m = some e → e.sites inside = []) (e : Expr) :
    ∀ inside, ((e.fill value).sites inside).map Site.mention
      = ((e.sites inside).map Site.mention).filter fun m => (value m).isNone := by
  intro inside
  rw [map_mention_sites, map_mention_sites]
  induction e using induction_parts with
  | literal => rfl
  | mention s m =>
    rw [fill]
    cases hm : value m with
    | none => simp [hm]
    | some e =>
      rw [Option.getD_some, mentions, hvalue m e false hm]
      simp [hm]
  | signed s o e ih => rw [fill, mentions_signed, mentions_signed, ih]
  | binary s l o r hl hr =>
    rw [fill, mentions_binary, mentions_binary, List.filter_append, hl, hr]
  | conditional s c y n hc hy hn =>
    rw [fill, mentions_conditional, mentions_conditional, List.filter_append, List.filter_append,
      hc, hy, hn]
  | call s a es ih =>
    rw [fill, mentions_call, mentions_call, fillAll_eq_map, List.flatMap_map, List.filter_flatMap]
    exact List.flatMap_congr ih
  | list s es ih =>
    rw [fill, mentions_list, mentions_list, fillAll_eq_map, List.flatMap_map, List.filter_flatMap]
    exact List.flatMap_congr ih

theorem IsConstant.sites_eq {e : Expr} (h : e.IsConstant) (inside : Bool) : e.sites inside = [] := by
  cases h <;> rfl

/-- The items of a tree have the mentions that the spliced tree has. -/
theorem mentions_items (e : Expr) :
    e.items.flatMap (fun p => p.reading.mentions) = e.splice.reading.mentions := by
  cases e with
  | list s es =>
    rw [items, splice, reading, mentions_list, readingsOf_eq_map, List.flatMap_map]
  | _ => exact List.flatMap_singleton _ _

/-- The items of several trees side by side have the mentions of the trees, if each spliced tree
has those of its tree. -/
theorem mentions_readingsOf {es : List Expr}
    (h : ∀ e ∈ es, e.splice.reading.mentions = e.mentions) :
    (readingsOf (spliceAll es)).flatMap mentions = es.flatMap mentions := by
  rw [readingsOf_eq_map, spliceAll_eq_flatMap, List.flatMap_map, List.flatMap_assoc]
  exact List.flatMap_congr fun e he => (mentions_items e).trans (h e he)

/-- **The tree that is read back has the mentions of the tree that was written.** -/
theorem mentions_reading (e : Expr) : ∀ inside,
    (e.splice.reading.sites inside).map Site.mention = (e.sites inside).map Site.mention := by
  intro inside
  rw [map_mention_sites, map_mention_sites]
  induction e using induction_parts with
  | literal s v =>
    rw [splice, reading, mentions, (isConstant_reading v).sites_eq]
    rfl
  | mention => rfl
  | signed s o e ih => rw [splice, reading, mentions_signed, mentions_signed, ih]
  | binary s l o r hl hr => rw [splice, reading, mentions_binary, mentions_binary, hl, hr]
  | conditional s c y n hc hy hn =>
    rw [splice, reading, mentions_conditional, mentions_conditional, hc, hy, hn]
  | call s a es ih => rw [splice, reading, mentions_call, mentions_call, mentions_readingsOf ih]
  | list s es ih => rw [splice, reading, mentions_list, mentions_list, mentions_readingsOf ih]

/-- Samples mention nothing. -/
theorem sites_filler {samples : Samples} {category : String} {m : Mention} {e : Expr}
    (h : samples.filler category m = some e) (inside : Bool) : e.sites inside = [] := by
  obtain ⟨list, -, rfl⟩ := Option.map_eq_some_iff.mp h
  rcases samplesExpr_cases list with ⟨x, hx⟩ | ⟨-, es, hes, -, hconstant⟩
  · rw [hx, sites]
  · rw [hes, sites, sitesOfAll_eq_flatMap, List.flatMap_eq_nil_iff]
    exact fun e he => (hconstant e he).sites_eq inside

end Expr

namespace Formula

variable {f : Formula} {samples : Samples}

/-- **A substitution leaves exactly the other statistics to be read.** If no sign stands in front of
the name of an infinity, and if only statistics that are mentioned as arguments of calls have several
samples, then the text of the substitution compiles. It defines what the formula defines, and it
reads what the formula reads without the statistics that have samples, in the same order. -/
theorem dependencies_substitute {source category : String}
    (hf : Formula.compile source category = .ok f)
    (hsigns : f.assignment.body.signsInfinity = false) (h : f.HasRoomFor samples) :
    ∃ text g, f.substitute samples = .ok text ∧ Formula.compile text category = .ok g
      ∧ g.derived = f.derived
      ∧ g.dependencies.dependents
        = f.dependencies.dependents.filter fun s => decide (s ∉ samples.statistics) := by
  obtain ⟨g, hg, hcategory, htarget, hbody⟩ := h.compile hf hsigns
  obtain ⟨-, -, a, -, rfl⟩ := compile_ok.mp hf
  -- the mentions of the compiled text are those that have no samples
  have hmentions : (g.assignment.body.sites false).map Site.mention
      = ((a.body.sites false).map Site.mention).filter fun m =>
        (samples.filler category m).isNone := by
    rw [← Expr.mentions_bare, hbody, Expr.mentions_reading]
    show (((a.body.bare.fill (samples.filler category)).sites false).map Site.mention) = _
    rw [Expr.mentions_fill (fun _ _ inside he => Expr.sites_filler he inside), Expr.mentions_bare]
  have hkeys : ∀ m : Mention, (samples.filler category m).isNone
      = decide (m.resolve category ∉ samples.statistics) := by
    intro m
    rw [Samples.filler, Option.isNone_map, Bool.eq_iff_iff, Table.isNone_get?, decide_eq_true_iff]
  refine ⟨_, g, h.substitute, hg, ?_, ?_⟩
  · show g.assignment.target.resolve g.category = a.target.resolve category
    rw [htarget, hcategory]
  · show firstOccurrences ((g.assignment.body.sites false).map fun s => s.mention.resolve g.category)
      = (firstOccurrences ((a.body.sites false).map fun s => s.mention.resolve category)).filter _
    rw [← firstOccurrences_filter, hcategory]
    congr 1
    calc (g.assignment.body.sites false).map (fun s => s.mention.resolve category)
        = ((g.assignment.body.sites false).map Site.mention).map (·.resolve category) := by
          rw [List.map_map]
          rfl
      _ = (((a.body.sites false).map Site.mention).filter
            fun m => decide (m.resolve category ∉ samples.statistics)).map (·.resolve category) := by
          rw [hmentions]
          simp only [hkeys]
      _ = (((a.body.sites false).map Site.mention).map (·.resolve category)).filter
            fun s => decide (s ∉ samples.statistics) := by
          generalize (a.body.sites false).map Site.mention = ms
          rw [List.filter_map]
          rfl
      _ = _ := by
          rw [List.map_map]
          rfl

/-- The target has a sample of its own, and `a` is mentioned with and without its category. -/
theorem dependencies_substitute_target :
    ∃ f g, compile "x = SUM(w\x7bm:\"*\"\x7d, a) + c.a * x - b" "c" = .ok f
      ∧ f.substitute (.ofList [(⟨"c", "w", .ofList [("m", "*")]⟩, [5.0, -6.0]),
          (⟨"c", "a", .empty⟩, [2.0]), (⟨"c", "x", .empty⟩, [9.0])])
        = .ok "x = SUM(5, -6, 2) + 2 * 9 - b"
      ∧ compile "x = SUM(5, -6, 2) + 2 * 9 - b" "c" = .ok g
      ∧ g.derived = ⟨"c", "x", .empty⟩ ∧ g.dependencies.dependents = [⟨"c", "b", .empty⟩] := by
  obtain ⟨samples, hsamples⟩ : ∃ samples : Samples, samples =
    .ofList [(⟨"c", "w", .ofList [("m", "*")]⟩, [5.0, -6.0]), (⟨"c", "a", .empty⟩, [2.0]),
      (⟨"c", "x", .empty⟩, [9.0])] := ⟨_, rfl⟩
  have hread : (compile "x = SUM(w\x7bm:\"*\"\x7d, a) + c.a * x - b" "c").toOption.map (fun f =>
      (f.category, f.assignment.body.signsInfinity, f.assignment.body.looseMentions false,
        (f.substitute samples).toOption, f.dependencies)) =
      some ("c", false, [⟨some "c", "a", []⟩, ⟨none, "x", []⟩, ⟨none, "b", []⟩],
        some "x = SUM(5, -6, 2) + 2 * 9 - b",
        ⟨⟨"c", "x", .empty⟩, [⟨"c", "w", .ofList [("m", "*")]⟩, ⟨"c", "a", .empty⟩,
          ⟨"c", "x", .empty⟩, ⟨"c", "b", .empty⟩]⟩) := by
    subst hsamples
    decide +kernel
  have hseveral : ∀ m ∈ [(⟨some "c", "a", []⟩ : Mention), ⟨none, "x", []⟩, ⟨none, "b", []⟩],
      samples.several "c" m = false := by
    subst hsamples
    decide +kernel
  have hleft : ([⟨"c", "w", .ofList [("m", "*")]⟩, ⟨"c", "a", .empty⟩, ⟨"c", "x", .empty⟩,
      ⟨"c", "b", .empty⟩] : List Statistic).filter (fun s => decide (s ∉ samples.statistics))
      = [⟨"c", "b", .empty⟩] := by
    subst hsamples
    decide +kernel
  obtain ⟨f, hf, hfacts⟩ := exists_ok_of_toOption hread
  simp only [Prod.mk.injEq] at hfacts
  obtain ⟨hcategory, hsigns, hloose, htext, hdependencies⟩ := hfacts
  have hroom : f.HasRoomFor samples := by
    rw [HasRoomFor, hloose, hcategory]
    exact hseveral
  obtain ⟨text, g, hsubstitute, hg, hderived, hdependents⟩ :=
    dependencies_substitute hf hsigns hroom
  obtain rfl := Except.ok.inj (hsubstitute.symm.trans (eq_ok_of_toOption htext))
  rw [hdependencies, hleft] at hdependents
  subst hsamples
  exact ⟨f, g, hf, hsubstitute, hg, hderived.trans (congrArg Dependencies.derived hdependencies),
    hdependents⟩

end Formula

end DerivedStats
