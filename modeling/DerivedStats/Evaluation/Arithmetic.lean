import DerivedStats.Number
import DerivedStats.Syntax.Operator

/-!
# Arithmetic of the operators

What the operators do to doubles. Sums, products and order are those of IEEE 754. Truth is one and
falsehood zero; equality with something that is not a number is itself not a number, and as an
operand of `&&` and `||` everything but zero is true.
-/

namespace DerivedStats

/-- A truth value as a number. -/
def ofTruth (b : Bool) : Float := if b then 1.0 else 0.0

/-- The number counts as true for `&&` and `||`: it is not zero. -/
def isNonzero (x : Float) : Bool := !(x == 0.0)

/-- The number lets a conditional take its first branch: it is greater than zero. -/
def holds (x : Float) : Bool := 0.0 < x

namespace Operator

/-- The result of an operator. -/
def apply (o : Operator) (x y : Float) : Float :=
  match o with
  | or => ofTruth (isNonzero x || isNonzero y)
  | and => ofTruth (isNonzero x && isNonzero y)
  | equal => if x.isNaN || y.isNaN then Number.nan else ofTruth (x == y)
  | notEqual => if x.isNaN || y.isNaN then Number.nan else ofTruth (!(x == y))
  | greater => ofTruth (y < x)
  | greaterOrEqual => ofTruth (y ≤ x)
  | less => ofTruth (x < y)
  | lessOrEqual => ofTruth (x ≤ y)
  | add => x + y
  | subtract => x - y
  | multiply => x * y
  | divide => x / y

end Operator

end DerivedStats
