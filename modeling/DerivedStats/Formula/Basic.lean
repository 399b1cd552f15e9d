import DerivedStats.Formula.Dependency
import DerivedStats.Formula.Samples
import DerivedStats.Grammar.Read

/-!
# Formulas

A definition that was read once and can be evaluated any number of times. It keeps its source, so
that every misuse is reported with its place in the text.
-/

namespace DerivedStats

/-- The definition of a derived statistic, ready for evaluation. -/
structure Formula where
  source : String
  /-- The category of mentions without one. -/
  category : String
  assignment : Assignment
deriving Inhabited

namespace Formula

/-- Reads a definition; a blank source and a blank category are refused. -/
def compile (source category : String) : Except Report Formula :=
  if Text.isBlankText source then
    .error (.argument .missingExpression "Expression is required")
  else if Text.isBlankText category then
    .error (.argument .missingCategory "CategoryId is required")
  else do
    let a ← Assignment.ofText source
    return ⟨source, category, a⟩

/-- What the formula defines and what it reads. -/
def dependencies (f : Formula) : Dependencies := .ofAssignment f.assignment f.category

/-- The statistic that the formula defines. -/
def derived (f : Formula) : Statistic := f.dependencies.derived

/-- The events of having made the formula. -/
def compilingEvents (f : Formula) : List Event :=
  f.dependencies.event :: f.assignment.body.compilingEvents
    ++ [.compiled f.source f.derived f.dependencies.dependents.length]

/-- The value of the formula. -/
def evaluate (f : Formula) (values : Values) (placeholders : Placeholders) : Except Report Float :=
  (f.assignment.body.evaluateScalar ⟨f.category, values, placeholders⟩).mapError
    (Misuse.toReportIn f.source)

/-- The value of the formula with its own dimensions as placeholders, if some of them are open. -/
def evaluateValues (f : Formula) (values : Values) : Except Report Float :=
  f.evaluate values (if f.derived.isWildcarded then f.derived.dimensions else .empty)

/-- The value of the formula over sample lists. -/
def evaluateSamples (f : Formula) (samples : Samples) : Except Report Float :=
  match samples.expand f.derived with
  | .error misuse => .error (misuse.toReportIn f.source)
  | .ok (values, placeholders) => f.evaluate values placeholders

end Formula

/-- The statistic that a text mentions. -/
def Statistic.ofText (text category : String) : Except Report Statistic := do
  let (m, _) ← Mention.ofText text
  return m.resolve category

end DerivedStats
