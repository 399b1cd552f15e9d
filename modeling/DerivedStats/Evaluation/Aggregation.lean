import DerivedStats.Number
import DerivedStats.Syntax.Operator

/-!
# Aggregates

Several numbers reduced to one. Sums carry along what each addition loses (compensated summation);
where that bookkeeping itself breaks down because a sum is infinite, the plain sum is the answer.
The extremes are those of the order of numbers, and a single value that is not a number makes them
not a number. Over no values at all every aggregate is zero.
-/

namespace DerivedStats

/-- A sum under way. -/
structure CompensatedSum where
  /-- The sum with compensation. -/
  sum : Float := 0.0
  /-- What the last addition added too much. -/
  compensation : Float := 0.0
  /-- The sum without compensation. -/
  plain : Float := 0.0

namespace CompensatedSum

/-- One more value. -/
def add (s : CompensatedSum) (value : Float) : CompensatedSum :=
  let corrected := value - s.compensation
  let sum := s.sum + corrected
  { sum := sum
    compensation := (sum - s.sum) - corrected
    plain := s.plain + value }

/-- The sum of the values so far. -/
def total (s : CompensatedSum) : Float :=
  let total := s.sum - s.compensation
  if total.isNaN && s.plain.isInf then s.plain else total

/-- The sum of values, added from left to right. -/
def ofList (values : List Float) : CompensatedSum := values.foldl add {}

end CompensatedSum

/-- The preferred one of two numbers; not a number if one of them is not. -/
def extreme (prefers : Float → Float → Bool) (x y : Float) : Float :=
  if x.isNaN || y.isNaN then Number.nan else if prefers y x then y else x

/-- The preferred one of several numbers; zero if there are none. -/
def extremeOf (prefers : Float → Float → Bool) : List Float → Float
  | [] => 0.0
  | x :: xs => xs.foldl (extreme prefers) x

namespace Aggregate

/-- The result of an aggregate over a list of values. -/
def apply (a : Aggregate) (values : List Float) : Float :=
  match a with
  | sum => (CompensatedSum.ofList values).total
  | average =>
    if values.isEmpty then 0.0
    else (CompensatedSum.ofList values).total / Float.ofNat values.length
  | minimum => extremeOf (fun x y => x < y) values
  | maximum => extremeOf (fun x y => y < x) values

/-- Over no values every aggregate is zero. -/
theorem apply_nil (a : Aggregate) : a.apply [] = 0.0 := by cases a <;> rfl

end Aggregate

end DerivedStats
