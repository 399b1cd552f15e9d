import DerivedStats.Proofs.Evaluation.Mentions

/-!
# Placeholders written into a tree

An open dimension is closed by a placeholder while the tree is evaluated. The placeholder may as
well be written into the tree beforehand, in place of each wildcard whose key it binds
(`Expr.instantiate`): if the placeholders close all mentions, then the instantiated tree without
placeholders has the same outcome as the tree with them (`Expr.evaluate_instantiate`).

A mention may name a key several times, with a wildcard or with a value. Only the last one counts,
and it does so before and after the placeholders are written in (`Mention.resolve_instantiate`).
-/

namespace DerivedStats

/-- The dimension with the bound value in place of a wildcard. -/
def Dimension.instantiate (placeholders : Placeholders) (d : Dimension) : Dimension :=
  { d with
    value := if d.value = wildcard then (placeholders.get? d.key).getD d.value else d.value }

/-- The mention with bound values in place of wildcards. -/
def Mention.instantiate (placeholders : Placeholders) (m : Mention) : Mention :=
  { m with dimensions := m.dimensions.map (·.instantiate placeholders) }

/-- The tree with bound values in place of the wildcards of its mentions. -/
def Expr.instantiate (placeholders : Placeholders) (e : Expr) : Expr :=
  e.mapMentions (·.instantiate placeholders)

/-- An instantiated mention stands for the resolved statistic. -/
theorem Mention.resolve_instantiate (m : Mention) (placeholders : Placeholders)
    (category : String) :
    (m.instantiate placeholders).resolve category
      = (m.resolve category).resolve placeholders := by
  have hdimensions : (m.instantiate placeholders).dimensionsByKey
      = m.dimensionsByKey.mapValues fun key value =>
          if value = wildcard then (placeholders.get? key).getD value else value := by
    rw [dimensionsByKey, dimensionsByKey, Dictionary.mapValues_ofList, instantiate, List.map_map,
      List.map_map]
    rfl
  rw [resolve, hdimensions]
  rfl

namespace Statistic

/-- The placeholders bind all open dimensions, and none of them to the wildcard. -/
def ClosedBy (s : Statistic) (placeholders : Placeholders) : Prop :=
  ∀ p ∈ s.dimensions.pairs, p.2 = wildcard →
    ∃ value ∈ placeholders.get? p.1, value ≠ wildcard

instance (s : Statistic) (placeholders : Placeholders) : Decidable (s.ClosedBy placeholders) :=
  inferInstanceAs (Decidable (∀ p ∈ s.dimensions.pairs, p.2 = wildcard →
    ∃ value ∈ placeholders.get? p.1, value ≠ wildcard))

/-- Placeholders that close a statistic leave nothing open in it. -/
theorem isWildcarded_resolve {s : Statistic} {placeholders : Placeholders}
    (h : s.ClosedBy placeholders) : (s.resolve placeholders).isWildcarded = false := by
  refine List.any_eq_false.mpr fun p hp => ?_
  obtain ⟨⟨key, value⟩, hmem, rfl⟩ := List.mem_map.mp hp
  by_cases hvalue : value = wildcard
  · obtain ⟨bound, hbound, hne⟩ := h _ hmem hvalue
    simpa [hvalue, Option.mem_def.mp hbound] using hne
  · simp [hvalue]

end Statistic

/-- What a statistic means with placeholders is what the resolved one means without. -/
theorem Scope.read_resolve {category : String} {values : Values} {placeholders : Placeholders}
    {s : Statistic} (h : s.ClosedBy placeholders) :
    (Scope.mk category values .empty).read (s.resolve placeholders)
      = (Scope.mk category values placeholders).read s := by
  rw [read, Statistic.isWildcarded_resolve h, read]
  cases hopen : s.isWildcarded with
  | false =>
    rw [Statistic.resolve_of_closed hopen]
    rfl
  | true =>
    -- something is open, so there is a placeholder
    obtain ⟨p, hp, hvalue⟩ := List.any_eq_true.mp hopen
    obtain ⟨bound, hbound, -⟩ := h p hp (eq_of_beq hvalue)
    have hbinds : placeholders.isEmpty = false := by
      refine List.isEmpty_eq_false_iff.mpr ?_
      exact List.ne_nil_of_mem (Dictionary.mem_of_get? hbound)
    rw [hbinds]
    rfl

namespace Expr

/-- **Placeholders can be written into a tree.** If they close all its mentions, then the
instantiated tree has the same outcome without placeholders as the tree has with them, or the same
misuse at the same place. -/
theorem evaluate_instantiate {category : String} {values : Values} {placeholders : Placeholders}
    {e : Expr}
    (h : ∀ site ∈ e.sites false, (site.mention.resolve category).ClosedBy placeholders) :
    (e.instantiate placeholders).evaluate ⟨category, values, .empty⟩
      = e.evaluate ⟨category, values, placeholders⟩ := by
  refine evaluate_mapMentions e false fun site hsite => ?_
  rw [Mention.resolve_instantiate]
  exact Scope.read_resolve (h site hsite)

/-- A key that is named twice, with the wildcard behind a value and in front of one. -/
theorem evaluate_instantiate_repeated_key :
    (call .none .sum [.mention .none ⟨none, "w", [⟨"m", "a"⟩, ⟨"m", "b"⟩]⟩,
        .mention .none ⟨none, "w", [⟨"m", "b"⟩, ⟨"m", "a"⟩]⟩]).evaluate
          ⟨"c", .ofList [(⟨"c", "w", .ofList [("m", "a")]⟩, 5.0),
            (⟨"c", "w", .ofList [("m", "b")]⟩, 2.0)], .empty⟩
      = (call .none .sum [.mention .none ⟨none, "w", [⟨"m", "a"⟩, ⟨"m", "*"⟩]⟩,
        .mention .none ⟨none, "w", [⟨"m", "*"⟩, ⟨"m", "a"⟩]⟩]).evaluate
          ⟨"c", .ofList [(⟨"c", "w", .ofList [("m", "a")]⟩, 5.0),
            (⟨"c", "w", .ofList [("m", "b")]⟩, 2.0)], .ofList [("m", "b")]⟩ := by
  have hinstantiate : (call .none .sum [.mention .none ⟨none, "w", [⟨"m", "a"⟩, ⟨"m", "*"⟩]⟩,
      .mention .none ⟨none, "w", [⟨"m", "*"⟩, ⟨"m", "a"⟩]⟩]).instantiate (.ofList [("m", "b")])
        = call .none .sum [.mention .none ⟨none, "w", [⟨"m", "a"⟩, ⟨"m", "b"⟩]⟩,
          .mention .none ⟨none, "w", [⟨"m", "b"⟩, ⟨"m", "a"⟩]⟩] := rfl
  rw [← hinstantiate]
  exact evaluate_instantiate (by decide +kernel)

end Expr

end DerivedStats
