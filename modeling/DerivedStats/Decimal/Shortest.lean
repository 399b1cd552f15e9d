import DerivedStats.Decimal.Basic

/-!
# Shortest decimal numbers

Of all decimal numbers that read back as a given double, the one on the coarsest grid `10 ^ e` is
the one with the fewest digits. On a grid only the two neighbours of the double can read back,
since those that do form an interval around it. `shortest` walks down the grids from one that is
too coarse for any hit to the one on which the double itself lies.
-/

namespace DerivedStats.Decimal

/-- Which of two decimal numbers equally near is taken. -/
inductive Tie where
  /-- The greater one. -/
  | up
  /-- The one with the even last digit. -/
  | even
deriving DecidableEq

/-- The neighbours of `num / den` on the grid `10 ^ e`, the lower first, and how twice the distance
from the lower one compares with the grid's step. -/
def neighbours (num den : Nat) (e : Int) : Decimal × Decimal × Ordering :=
  let n := num * Nat.pow 10 (-e).toNat
  let d := den * Nat.pow 10 e.toNat
  (⟨n / d, e⟩, ⟨n / d + 1, e⟩, compare (2 * (n % d)) d)

/-- The upper neighbour is to be preferred to the lower one, whose digits are `lower`. -/
def prefersUpper (tie : Tie) (lower : Nat) : Ordering → Bool
  | .lt => false
  | .gt => true
  | .eq =>
    match tie with
    | .up => true
    | .even => lower % 2 = 1

/-- The nearest number on the grid `10 ^ e` that reads back as `x`, whose value is `num / den`. -/
def onGrid? (x : Float) (tie : Tie) (num den : Nat) (e : Int) : Option Decimal :=
  let (lower, upper, half) := neighbours num den e
  if lower.toFloat = x then
    if upper.toFloat = x ∧ prefersUpper tie lower.digits half then some upper else some lower
  else if upper.toFloat = x then some upper
  else none

/-- What is taken from a grid reads back as the number. -/
theorem onGrid?_toFloat {x : Float} {tie : Tie} {num den : Nat} {e : Int} {d : Decimal}
    (h : onGrid? x tie num den e = some d) : d.toFloat = x := by
  unfold onGrid? at h
  generalize neighbours num den e = p at h
  obtain ⟨lower, upper, half⟩ := p
  simp only at h
  split at h
  · next hlower =>
    split at h
    · next hupper => obtain rfl := Option.some.inj h; exact hupper.1
    · obtain rfl := Option.some.inj h; exact hlower
  · split at h
    · next hupper => obtain rfl := Option.some.inj h; exact hupper
    · exact absurd h (by simp)

/-- The first hit on the grids `10 ^ e`, `10 ^ (e - 1)`, … over `n` grids. -/
def firstHit? (x : Float) (tie : Tie) (num den : Nat) : Nat → Int → Option Decimal
  | 0, _ => none
  | n + 1, e =>
    match onGrid? x tie num den e with
    | some d => some d
    | none => firstHit? x tie num den n (e - 1)

/-- What the search finds reads back as the number. -/
theorem firstHit?_toFloat {x : Float} {tie : Tie} {num den n : Nat} {e : Int} {d : Decimal}
    (h : firstHit? x tie num den n e = some d) : d.toFloat = x := by
  induction n generalizing e with
  | zero => simp [firstHit?] at h
  | succ n ih =>
    rw [firstHit?] at h
    split at h
    · next hit => obtain rfl := Option.some.inj h; exact onGrid?_toFloat hit
    · exact ih h

/-- The magnitude of a double as a decimal number, digit for digit. -/
def exact (d : Dyadic) : Decimal :=
  if 0 ≤ d.exponent then ⟨d.numerator, 0⟩
  else ⟨d.mantissa * Nat.pow 5 (-d.exponent).toNat, d.exponent⟩

/-- An exponent of ten that no magnitude `mantissa * 2 ^ exponent` comes near. -/
def coarsest (d : Dyadic) : Int :=
  ((d.mantissa.log2 : Int) + 1 + d.exponent) * 30103 / 100000 + 2

/-- The decimal number with the fewest digits that reads back as the positive finite double `x`; of
several, the nearest to it. -/
def shortest (tie : Tie) (x : Float) : Decimal :=
  let d := Dyadic.ofFloat x
  let start := coarsest d
  let grids := (start - min d.exponent 0).toNat + 1
  (firstHit? x tie d.numerator d.denominator grids start).getD (exact d)

end DerivedStats.Decimal
