import DerivedStats.Decimal.Basic

/-!
# Layouts of decimal numbers

The digits of a decimal number are laid out with a point (`positional`) or with a point behind the
first digit and a power of ten (`scientific`).
-/

namespace DerivedStats.Decimal

/-- The digits with the point where the exponent puts it; no point in front of nothing, and no digit
that the value does not need. -/
def positional (d : Decimal) : List Char :=
  let ds := Nat.toDigits 10 d.digits
  let places := (-d.exponent).toNat
  if places = 0 then ds ++ List.replicate d.exponent.toNat '0'
  else if places < ds.length then
    ds.take (ds.length - places) ++ '.' :: ds.drop (ds.length - places)
  else
    '0' :: '.' :: (List.replicate (places - ds.length) '0' ++ ds)

/-- The power of ten of the first digit. -/
def leadingExponent (d : Decimal) : Int :=
  d.exponent + (Nat.toDigits 10 d.digits).length - 1

/-- One digit, the others behind a point, and the power of ten, always with its sign. -/
def scientific (d : Decimal) : List Char :=
  let e := d.leadingExponent
  let power := 'e' :: (if e < 0 then '-' else '+') :: Nat.toDigits 10 e.natAbs
  match Nat.toDigits 10 d.digits with
  | [] => power
  | [digit] => digit :: power
  | digit :: more => digit :: '.' :: (more ++ power)

end DerivedStats.Decimal
