/-!
# Doubles as dyadic fractions

A finite double is a natural number times a power of two. This file takes doubles apart
(`Dyadic.ofFloat`) and rounds a fraction of natural numbers to the nearest double (`nearest`); of
two doubles equally near, the one with the even significand is taken, and a fraction beyond the
largest double becomes infinity.
-/

namespace DerivedStats

/-- The value `mantissa * 2 ^ exponent`. -/
structure Dyadic where
  mantissa : Nat
  exponent : Int
deriving DecidableEq

namespace Dyadic

/-- The magnitude of a finite double. -/
def ofFloat (x : Float) : Dyadic :=
  let bits := x.toBits.toNat
  let fraction := bits % 0x10000000000000
  let biased := bits / 0x10000000000000 % 0x800
  { mantissa := if biased = 0 then fraction else 0x10000000000000 + fraction
    exponent := (max biased 1 : Nat) - 1075 }

/-- The numerator of the value as a fraction. -/
def numerator (d : Dyadic) : Nat := d.mantissa <<< d.exponent.toNat

/-- The denominator of the value as a fraction. -/
def denominator (d : Dyadic) : Nat := 1 <<< (-d.exponent).toNat

end Dyadic

namespace Decimal

/-- The quotient rounded to the nearest natural number, a half to the even neighbour. -/
def roundQuotient (num den : Nat) : Nat :=
  let quotient := num / den
  match compare (2 * (num % den)) den with
  | .lt => quotient
  | .eq => quotient + quotient % 2
  | .gt => quotient + 1

/-- The bits of positive infinity, one more than those of the largest finite double. -/
def infinityBits : Nat := 0x7FF0000000000000

/-- The fraction `num / den` divided by `2 ^ e`, as a fraction again. -/
def scaleDown (num den : Nat) (e : Int) : Nat × Nat :=
  (num <<< (-e).toNat, den <<< e.toNat)

/-- The exponent of the unit in the last place of the double nearest to `num / den`, before
rounding: the significand has 53 bits, or fewer at the bottom of the range. -/
def unitExponent (num den : Nat) : Int :=
  let low : Int := max (-1074) ((num.log2 : Int) - den.log2 - 53)
  let (n, d) := scaleDown num den low
  if n / d < 0x20000000000000 then low else low + 1

/-- The bits of the double nearest to the fraction `num / den`. A significand that rounds up to 54
bits carries into the exponent, which is the right double then. -/
def nearestBits (num den : Nat) : Nat :=
  if num = 0 then 0
  else
    let e := unitExponent num den
    let (n, d) := scaleDown num den e
    min ((e + 1074).toNat * 0x10000000000000 + roundQuotient n d) infinityBits

/-- The double nearest to the fraction `num / den`. -/
def nearest (num den : Nat) : Float := Float.ofBits (nearestBits num den).toUInt64

end Decimal

end DerivedStats
