/-!
# Error codes

Every reported fault carries a number. Numbers below 100 are faults of the source text, those from
100 faults of the arguments, and those from 200 faults of an evaluation.
-/

namespace DerivedStats

/-- The number of a kind of fault. -/
structure Code where
  number : Nat
deriving DecidableEq, Inhabited

namespace Code

/-- A character that no token can hold. -/
def strayCharacter : Code := ⟨1⟩

/-- A token where the grammar wants another one. -/
def mismatchedInput : Code := ⟨2⟩

/-- The end of the text where the grammar wants a token. -/
def unexpectedEnd : Code := ⟨3⟩

/-- A blank expression. -/
def missingExpression : Code := ⟨100⟩

/-- A blank category. -/
def missingCategory : Code := ⟨101⟩

/-- A blank statistic name. -/
def missingName : Code := ⟨102⟩

/-- Several values for a mention that no aggregate encloses. -/
def multipleValues : Code := ⟨201⟩

/-- A number of samples other than one where exactly one is wanted. -/
def sampleCount : Code := ⟨202⟩

/-- A sequence where a single number is wanted. -/
def sequenceAsScalar : Code := ⟨203⟩

/-- The code as it is shown: the number with at least four digits. -/
def text (c : Code) : String :=
  "SE" ++ String.ofList ((Nat.toDigits 10 c.number).leftpad 4 '0')

/-- What a code stands for. -/
def description (c : Code) : String :=
  match c.number with
  | 1 => "Token recognition error"
  | 2 => "Mismatched input"
  | 3 => "Unexpected end of input"
  | 100 => "Missing expression"
  | 101 => "Missing category"
  | 102 => "Missing statistic name"
  | 201 => "Multiple values outside an aggregate"
  | 202 => "Invalid sample count"
  | 203 => "Sequence used where a scalar was expected"
  | _ => "Unknown error"

/-- The standing advice for a code. -/
def help (c : Code) : Option String :=
  match c.number with
  | 201 => some "Only references inside SUM, AVG, MIN or MAX accept several values"
  | 202 => some "Placeholder expressions take exactly one sample per statistic"
  | _ => none

end Code

end DerivedStats
