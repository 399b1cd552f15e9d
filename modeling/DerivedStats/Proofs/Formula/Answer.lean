import DerivedStats.Proofs.Evaluation.Shape
import DerivedStats.Proofs.Formula.Replacement

/-!
# What a formula answers

The answer of a formula is the number that its tree stands for. If it stands for none, the answer is
a report that a sequence is not a number; nothing else can go wrong (`Formula.evaluate_cases`).
Which of the two it is can be told from the shape of the tree (`Formula.evaluate_shapes`).
-/

namespace DerivedStats

namespace Formula

variable {f : Formula}

/-- A report has the code of the misuse that it tells about. -/
theorem code_toReportIn (source : String) (m : Misuse) : (m.toReportIn source).code = m.code := by
  unfold Misuse.toReportIn
  split <;> rfl

/-- The answer of a formula is the number that its tree stands for; without one it is a report that
a sequence is not a number. -/
theorem evaluate_cases (f : Formula) (values : Values) (placeholders : Placeholders) :
    (∃ v, f.evaluate values placeholders = .ok v
        ∧ f.assignment.body.number? ⟨f.category, values, placeholders⟩ = some v) ∨
      ∃ r, f.evaluate values placeholders = .error r ∧ r.code = .sequenceAsScalar
        ∧ f.assignment.body.number? ⟨f.category, values, placeholders⟩ = none := by
  unfold evaluate
  rw [← Expr.toOption_evaluateScalar]
  cases h : f.assignment.body.evaluateScalar ⟨f.category, values, placeholders⟩ with
  | ok v => exact .inl ⟨v, rfl, rfl⟩
  | error m =>
    refine .inr ⟨_, rfl, ?_, rfl⟩
    rw [code_toReportIn]
    rcases error_of_bind h with h | ⟨o, -, h⟩
    · exact Expr.code_of_evaluate h
    · exact Outcome.code_of_single h

/-- A formula has a value exactly if its tree stands for this number. -/
theorem evaluate_eq_ok {values : Values} {placeholders : Placeholders} {v : Float} :
    f.evaluate values placeholders = .ok v ↔
      f.assignment.body.number? ⟨f.category, values, placeholders⟩ = some v := by
  rcases evaluate_cases f values placeholders with ⟨w, hw, hnumber⟩ | ⟨r, hr, -, hnumber⟩
  · rw [hw, hnumber, Except.ok.injEq, Option.some_inj]
  · rw [hr, hnumber]
    exact ⟨fun h => (nomatch h), fun h => (nomatch h)⟩

/-- **Shapes tell answers.** With placeholders a formula has a value. Without them it has one over
every table if it is well shaped, and over no table if it is not and has no conditionals; then the
report is that a sequence is not a number, and it is placed at one and the same negation, operator
phrase or whole body over all tables. -/
theorem evaluate_shapes {source category : String} (hf : compile source category = .ok f) :
    (∀ values placeholders, placeholders.isEmpty = false →
      ∃ v, f.evaluate values placeholders = .ok v)
    ∧ (f.assignment.body.isWellShaped category = true →
      ∀ values, ∃ v, f.evaluate values .empty = .ok v)
    ∧ (f.assignment.body.hasConditional = false →
      f.assignment.body.isWellShaped category = false →
      ∃ span ∈ f.assignment.body.span :: f.assignment.body.operationSpans, ∀ values,
        ∃ r, f.evaluate values .empty = .error r ∧ r.code = .sequenceAsScalar
          ∧ r.location = some (.ofSpan span source)) := by
  obtain ⟨-, -, a, ha, rfl⟩ := compile_ok.mp hf
  obtain ⟨-, hwritten, -⟩ := Assignment.written_of_ofText ha
  refine ⟨fun values placeholders hplaceholders => ?_, fun hshape values => ?_,
    fun hplain hshape => ?_⟩
  · obtain ⟨v, hv⟩ := @Expr.Written.number?_of_placeholders ⟨category, values, placeholders⟩ _
      hwritten hplaceholders
    exact ⟨v, evaluate_eq_ok.mpr ((Expr.number?_congr (Expr.outcome?_bare a.body)).symm.trans hv)⟩
  · obtain ⟨v, hv⟩ := @Expr.numberAt_of_isWellShaped ⟨category, values, .empty⟩ _ hshape a.body.span
    exact ⟨v, congrArg (Except.mapError (Misuse.toReportIn source)) hv⟩
  · obtain ⟨span, hspan, hfails⟩ :=
      Expr.failsWithin_numberAt hplain hshape (Expr.failsWithin_evaluate hplain) a.body.span
    refine ⟨span, hspan, fun values => ⟨Misuse.toReportIn source (.sequenceAsScalar (some span)),
      congrArg (Except.mapError (Misuse.toReportIn source)) (hfails values), ?_, rfl⟩⟩
    exact code_toReportIn source _

/-- A sum of a sequence, and a difference with one. -/
theorem evaluate_shapes_difference :
    ∃ f g, compile "x = SUM(w\x7bm:\"*\"\x7d) * 2" "c" = .ok f
      ∧ compile "x = 1 - +w\x7bm:\"*\"\x7d" "c" = .ok g
      ∧ (∃ v, g.evaluate .empty (.ofList [("m", "1")]) = .ok v)
      ∧ (∀ values, ∃ v, f.evaluate values .empty = .ok v)
      ∧ ∃ span ∈ g.assignment.body.span :: g.assignment.body.operationSpans, ∀ values,
        ∃ r, g.evaluate values .empty = .error r ∧ r.code = .sequenceAsScalar
          ∧ r.location = some (.ofSpan span "x = 1 - +w\x7bm:\"*\"\x7d") := by
  have hsum : (compile "x = SUM(w\x7bm:\"*\"\x7d) * 2" "c").toOption.map
      (·.assignment.body.isWellShaped "c") = some true := by
    decide +kernel
  have hdifference : (compile "x = 1 - +w\x7bm:\"*\"\x7d" "c").toOption.map (fun g =>
      (g.assignment.body.hasConditional, g.assignment.body.isWellShaped "c")) =
      some (false, false) := by
    decide +kernel
  obtain ⟨f, hf, hshape⟩ := exists_ok_of_toOption hsum
  obtain ⟨g, hg, hfacts⟩ := exists_ok_of_toOption hdifference
  obtain ⟨hplain, hshape'⟩ := Prod.mk.inj hfacts
  obtain ⟨-, hvalue, -⟩ := evaluate_shapes hf
  obtain ⟨hresolved, -, hfails⟩ := evaluate_shapes hg
  exact ⟨f, g, hf, hg, hresolved _ _ rfl, hvalue hshape, hfails hplain hshape'⟩

end Formula

end DerivedStats
