import DerivedStats.Evaluation.Aggregation
import DerivedStats.Evaluation.Arithmetic
import DerivedStats.Evaluation.Misuse
import DerivedStats.Statistic.Table

/-!
# Evaluation

The value of an expression under a table of values. A mention with an open dimension means all
statistics that differ from it in the dimension values only; it is a sequence of values then, in
the order of the table. With placeholders it means the one statistic that they make of it.
Sequences pass through plus signs and conditionals and end in aggregates; anywhere else they are a
misuse.
-/

namespace DerivedStats

/-- The value of an expression: one number, or several. -/
inductive Outcome where
  | scalar (value : Float)
  | sequence (values : List Float)
deriving Inhabited

namespace Outcome

/-- The number, if there is just one by nature. -/
def scalar? : Outcome → Option Float
  | scalar x => some x
  | sequence _ => none

/-- All values; a single number is a sequence of one. -/
def values : Outcome → List Float
  | scalar x => [x]
  | sequence xs => xs

/-- The single number; a sequence is a misuse at the given span. -/
def single (span : Option Span) (o : Outcome) : Except Misuse Float :=
  match o.scalar? with
  | some x => .ok x
  | none => .error (.sequenceAsScalar span)

end Outcome

/-- What an expression is evaluated against. -/
structure Scope where
  /-- The category of mentions without one. -/
  category : String
  values : Values
  placeholders : Placeholders

namespace Scope

/-- The value of one statistic. -/
def valueOf (scope : Scope) (s : Statistic) : Float := (scope.values.get? s).getD 0.0

/-- The values of the statistics that differ from `s` in the dimension values only. -/
def matchesOf (scope : Scope) (s : Statistic) : List Float :=
  (scope.values.entries.filter fun e => s.sameKeys e.1).map (·.2)

/-- What a statistic means. -/
def read (scope : Scope) (s : Statistic) : Outcome :=
  if s.isWildcarded then
    if scope.placeholders.isEmpty then .sequence (scope.matchesOf s)
    else .scalar (scope.valueOf (s.resolve scope.placeholders))
  else .scalar (scope.valueOf s)

end Scope

namespace Expr

mutual

/-- The value of an expression. A misuse is placed at the signed phrase, the operator phrase or the
condition that wants a single number. -/
def evaluate (scope : Scope) : Expr → Except Misuse Outcome
  | literal _ x => .ok (.scalar x)
  | mention _ m => .ok (scope.read (m.resolve scope.category))
  | signed _ .plus e => e.evaluate scope
  | signed span .minus e => do
    let x ← (← e.evaluate scope).single span
    return .scalar (-x)
  | binary span l o r => do
    let x ← (← l.evaluate scope).single span
    let y ← (← r.evaluate scope).single span
    return .scalar (o.apply x y)
  | conditional _ c y n => do
    let x ← (← c.evaluate scope).single c.span
    if holds x then y.evaluate scope else n.evaluate scope
  | call _ a es => do return .scalar (a.apply (← evaluateAll scope es))
  | list _ es => do return .sequence (← evaluateAll scope es)

/-- The values of several expressions, one after the other. -/
def evaluateAll (scope : Scope) : List Expr → Except Misuse (List Float)
  | [] => .ok []
  | e :: es => do
    let first ← e.evaluate scope
    let more ← evaluateAll scope es
    return first.values ++ more

end

/-- A call aggregates what its arguments are worth side by side. -/
theorem evaluate_call (scope : Scope) (s t : Span) (a : Aggregate) (es : List Expr) :
    (call s a es).evaluate scope =
      (list t es).evaluate scope >>= fun o => .ok (.scalar (a.apply o.values)) := by
  rw [evaluate, evaluate]
  cases evaluateAll scope es <;> rfl

/-- The number that an expression stands for; a misuse without a place is placed at the whole
expression. -/
def evaluateScalar (scope : Scope) (e : Expr) : Except Misuse Float := do
  (← e.evaluate scope).single e.span

end Expr

end DerivedStats
