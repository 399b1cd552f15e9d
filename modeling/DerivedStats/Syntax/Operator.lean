/-!
# Operators

The operators of the expression language, their spelling and how strongly they bind. From weakest
to strongest: the conditional `? :`, `||`, `&&`, equality, order, sums, products, signs, and the
phrases that need no parentheses anywhere.
-/

namespace DerivedStats

/-- How strongly the conditional binds. -/
def conditionalPrecedence : Nat := 1

/-- How strongly a sign binds. -/
def signPrecedence : Nat := 8

/-- How strongly a phrase binds that never needs parentheses. -/
def atomPrecedence : Nat := 9

/-- A sign in front of an operand. -/
inductive Sign where
  | plus
  | minus
deriving DecidableEq, Inhabited

/-- The character a sign is written with. -/
def Sign.symbol : Sign → String
  | plus => "+"
  | minus => "-"

/-- An operator between two operands. -/
inductive Operator where
  | or
  | and
  | equal
  | notEqual
  | greater
  | greaterOrEqual
  | less
  | lessOrEqual
  | add
  | subtract
  | multiply
  | divide
deriving DecidableEq, Inhabited

namespace Operator

/-- All operators. -/
def all : List Operator :=
  [.or, .and, .equal, .notEqual, .greater, .greaterOrEqual, .less, .lessOrEqual, .add, .subtract,
    .multiply, .divide]

/-- How the operator is written. -/
def symbol : Operator → String
  | or => "||"
  | and => "&&"
  | equal => "=="
  | notEqual => "!="
  | greater => ">"
  | greaterOrEqual => ">="
  | less => "<"
  | lessOrEqual => "<="
  | add => "+"
  | subtract => "-"
  | multiply => "*"
  | divide => "/"

/-- How strongly the operator binds. -/
def precedence : Operator → Nat
  | or => 2
  | and => 3
  | equal | notEqual => 4
  | greater | greaterOrEqual | less | lessOrEqual => 5
  | add | subtract => 6
  | multiply | divide => 7

/-- A conditional binds weaker than every operator. -/
theorem conditional_lt_precedence (o : Operator) : conditionalPrecedence < o.precedence := by
  cases o <;> decide

/-- Every operator binds weaker than a sign. -/
theorem precedence_lt_sign (o : Operator) : o.precedence < signPrecedence := by
  cases o <;> decide

end Operator

/-- A function that reduces several values to one. -/
inductive Aggregate where
  | sum
  | average
  | minimum
  | maximum
deriving DecidableEq, Inhabited

namespace Aggregate

/-- All aggregates. -/
def all : List Aggregate := [.sum, .average, .minimum, .maximum]

/-- The name that calls the aggregate. -/
def name : Aggregate → String
  | sum => "SUM"
  | average => "AVG"
  | minimum => "MIN"
  | maximum => "MAX"

end Aggregate

end DerivedStats
