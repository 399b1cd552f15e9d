import DerivedStats.Formula.Basic
import DerivedStats.Proofs.Evaluation.Mentions

/-!
# What an evaluation reads

A tree reads its mentions only (`Expr.evaluate_congr`). The dependents of a formula are the
statistics that its mentions stand for, so two tables that give the dependents the same meaning are
the same table to the formula: it has the same value over both, or the same report with the same
place (`Formula.evaluate_eq_of_agree`).

What a dependent means differs with the placeholders: a closed one is looked up, an open one is
matched against all statistics with its keys, or with placeholders resolved and then looked up.
-/

namespace DerivedStats

/-- The tables give the statistic the same meaning. A statistic that a table does not know counts as
zero. -/
structure Values.Agree (placeholders : Placeholders) (values values' : Values) (s : Statistic) :
    Prop where
  closed : s.isWildcarded = false → (values.get? s).getD 0.0 = (values'.get? s).getD 0.0
  /-- Without placeholders the values of all statistics with the same keys come in one order. -/
  matched : s.isWildcarded = true → placeholders.isEmpty = true →
    (values.entries.filter fun e => s.sameKeys e.1).map (·.2)
      = (values'.entries.filter fun e => s.sameKeys e.1).map (·.2)
  resolved : s.isWildcarded = true → placeholders.isEmpty = false →
    (values.get? (s.resolve placeholders)).getD 0.0
      = (values'.get? (s.resolve placeholders)).getD 0.0

/-- A statistic means the same over tables that agree on it. -/
theorem Values.Agree.read_eq {placeholders : Placeholders} {values values' : Values} {s : Statistic}
    (h : Values.Agree placeholders values values' s) (category : String) :
    (Scope.mk category values placeholders).read s
      = (Scope.mk category values' placeholders).read s := by
  unfold Scope.read
  cases hopen : s.isWildcarded with
  | false => exact congrArg Outcome.scalar (h.closed hopen)
  | true =>
    cases hempty : placeholders.isEmpty with
    | true => exact congrArg Outcome.sequence (h.matched hopen hempty)
    | false => exact congrArg Outcome.scalar (h.resolved hopen hempty)

namespace Formula

/-- **The dependents are all that a formula reads.** Over tables that agree on them it has the same
value, or the same report. -/
theorem evaluate_eq_of_agree {f : Formula} {values values' : Values} {placeholders : Placeholders}
    (h : ∀ s ∈ f.dependencies.dependents, Values.Agree placeholders values values' s) :
    f.evaluate values placeholders = f.evaluate values' placeholders := by
  have hbody : f.assignment.body.evaluate ⟨f.category, values, placeholders⟩
      = f.assignment.body.evaluate ⟨f.category, values', placeholders⟩ := by
    refine Expr.evaluate_congr _ false fun site hsite => ?_
    have hmem : site.mention.resolve f.category ∈ f.dependencies.dependents :=
      mem_firstOccurrences.mpr (List.mem_map.mpr ⟨site, hsite, rfl⟩)
    exact (h _ hmem).read_eq f.category
  rw [evaluate, evaluate, Expr.evaluateScalar, Expr.evaluateScalar, hbody]

/-- Tables that differ in the order of the entries and in what `x` does not read, without and with a
placeholder. -/
theorem evaluate_eq_of_agree_reordered :
    ∃ f, compile "x = SUM(w\x7bm:\"*\"\x7d) / b" "c" = .ok f ∧
      ∀ placeholders ∈ [.empty, .ofList [("m", "1")]],
        f.evaluate (.ofList [(⟨"c", "w", .ofList [("m", "1")]⟩, 3.0), (⟨"c", "b", .empty⟩, 2.0),
            (⟨"c", "z", .empty⟩, 7.0)]) placeholders
          = f.evaluate (.ofList [(⟨"c", "b", .empty⟩, 2.0),
            (⟨"c", "w", .ofList [("m", "1")]⟩, 3.0)]) placeholders := by
  have hread : (compile "x = SUM(w\x7bm:\"*\"\x7d) / b" "c").toOption.map
      (·.dependencies.dependents) =
        some [⟨"c", "w", .ofList [("m", "*")]⟩, ⟨"c", "b", .empty⟩] := by
    decide +kernel
  obtain ⟨f, hf, hdependents⟩ := exists_ok_of_toOption hread
  refine ⟨f, hf, fun placeholders hmem => evaluate_eq_of_agree fun s hs => ?_⟩
  rw [hdependents] at hs
  simp only [List.mem_cons, List.not_mem_nil, or_false] at hmem hs
  rcases hmem with rfl | rfl <;> rcases hs with rfl | rfl <;>
    exact ⟨by decide +kernel, by decide +kernel, by decide +kernel⟩

end Formula

end DerivedStats
