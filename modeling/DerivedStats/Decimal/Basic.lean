import DerivedStats.Decimal.Binary64

/-!
# Decimal numbers

A decimal number is a natural number times a power of ten. Reading one as a double rounds to
nearest; `ofText` takes the digits in front of and behind the point and the exponent as they are
written.
-/

namespace DerivedStats

/-- The value `digits * 10 ^ exponent`. -/
structure Decimal where
  digits : Nat
  exponent : Int
deriving DecidableEq, Inhabited

namespace Decimal

/-- The double nearest to a decimal number. Exponents that leave the range of doubles by far are
answered without computing the power of ten. -/
def toFloat (d : Decimal) : Float :=
  let size : Int := (Nat.toDigits 10 d.digits).length
  if d.digits = 0 ∨ d.exponent + size < -400 then nearest 0 1
  else if d.exponent > 400 then Float.ofBits infinityBits.toUInt64
  else nearest (d.digits * Nat.pow 10 d.exponent.toNat) (Nat.pow 10 (-d.exponent).toNat)

/-- The number written as `whole.fraction` times ten to the `exponent`; all three are digits, and
`negative` tells the sign of the exponent. -/
def ofText (whole fraction : List Char) (negative : Bool) (exponent : List Char) : Decimal :=
  let magnitude : Int := Nat.ofDigitChars 10 exponent 0
  { digits := Nat.ofDigitChars 10 (whole ++ fraction) 0
    exponent := (if negative then -magnitude else magnitude) - fraction.length }

end Decimal

end DerivedStats
