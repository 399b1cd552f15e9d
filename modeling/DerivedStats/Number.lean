import DerivedStats.Decimal.Layout
import DerivedStats.Decimal.Shortest

/-!
# Numbers as text

How a double is written in an expression: `NaN`, `+Inf` and `-Inf` by name, any other number by the
fewest digits that read back, without an exponent and with a minus sign if the sign bit is set.
-/

namespace DerivedStats.Number

/-- Positive infinity. -/
def infinity : Float := Float.ofBits 0x7FF0000000000000

/-- Negative infinity. -/
def negativeInfinity : Float := Float.ofBits 0xFFF0000000000000

/-- The value that is not a number. -/
def nan : Float := Float.ofBits 0x7FF8000000000000

/-- The number is written with a minus sign in front: its sign bit is set. -/
def isNegative (x : Float) : Bool := !x.isNaN && x.toBits ≥ 0x8000000000000000

/-- The number without its sign. -/
def magnitude (x : Float) : Float := Float.ofBits (x.toBits &&& 0x7FFFFFFFFFFFFFFF)

/-- The digits of a finite number without its sign. -/
def digits (x : Float) : List Char :=
  let m := magnitude x
  if (Dyadic.ofFloat m).mantissa = 0 then ['0'] else (Decimal.shortest .up m).positional

/-- The number as the grammar reads it back. -/
def text (x : Float) : String :=
  if x.isNaN then "NaN"
  else if x.isInf then (if isNegative x then "-Inf" else "+Inf")
  else String.ofList (if isNegative x then '-' :: digits x else digits x)

end DerivedStats.Number
