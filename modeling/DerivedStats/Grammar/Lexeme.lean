import DerivedStats.Decimal.Basic
import DerivedStats.Grammar.Parser
import DerivedStats.Number
import DerivedStats.Syntax.Operator

/-!
# Lexemes

The smallest phrases of the grammar: names, numbers, the named constants, operators and signs. A
`+` or `-` directly before `Inf` or `INF` is part of that word wherever it stands, never an
operator or a sign.
-/

namespace DerivedStats.Grammar

open DerivedStats.Grammar.Parser

/-- A word that is not the start of a longer name. -/
def keyword (w : String) : Parser Unit := fun c =>
  match word w.toList c with
  | .error failure => .error failure
  | .ok ((), after) =>
    if after.rest.head?.any isNameChar then fail c else .ok ((), after)

/-- A name: a letter or underscore, then letters, digits and underscores. -/
def identifier : Parser String := do
  let first ← satisfy isNameStart
  let more ← run isNameChar
  return String.ofList (first :: more)

/-- A dimension value: the wildcard, or letters, digits, underscores, points and hyphens. -/
def dimensionValue : Parser String :=
  (do character '*'; return "*")
    <|> (do return String.ofList (← run1 isValueChar))

/-- The digits behind the point of a number. -/
def fraction : Parser (List Char) := do
  character '.'
  run1 isDigit

/-- The power of ten of a number: whether it is negative, and its digits. -/
def powerOfTen : Parser (Bool × List Char) := do
  let _ ← satisfy fun c => c = 'e' || c = 'E'
  let sign ← optional (satisfy fun c => c = '+' || c = '-')
  let ds ← run1 isDigit
  return (sign == some '-', ds)

/-- A number without sign: digits, then perhaps a fraction, then perhaps a power of ten. -/
def number : Parser Float := do
  let whole ← run1 isDigit
  let fraction ← optional fraction
  let power ← optional powerOfTen
  let (negative, exponent) := power.getD (false, [])
  return (Decimal.ofText whole (fraction.getD []) negative exponent).toFloat

/-- One of the words for the infinities. -/
def signedInfinity : Parser Float :=
  (do keyword "+Inf"; return Number.infinity)
    <|> (do keyword "+INF"; return Number.infinity)
    <|> (do keyword "-Inf"; return Number.negativeInfinity)
    <|> (do keyword "-INF"; return Number.negativeInfinity)

/-- The text starts with a word for an infinity. -/
def startsInfinity (cs : List Char) : Bool :=
  match signedInfinity ⟨0, cs⟩ with
  | .ok _ => true
  | .error _ => false

/-- The name of an aggregate. -/
def aggregateName : Parser Aggregate :=
  Aggregate.all.foldr (fun a p => (do word a.name.toList; return a) <|> p) fail

/-- One of the given operators, if it stands here; the earlier ones are tried first. -/
def operatorOf (operators : List Operator) : Parser (Option Operator) := fun c =>
  if startsInfinity c.rest then .ok (none, c)
  else
    match operators.find? fun o => o.symbol.toList.isPrefixOf c.rest with
    | none => .ok (none, c)
    | some o => .ok (some o, c.past o.symbol.toList (c.rest.drop o.symbol.length))

/-- The sign that a character stands for. -/
def sign? (c : Char) : Option Sign :=
  if c = '+' then some .plus else if c = '-' then some .minus else none

/-- The signs in front of an operand, each with its offset, and the cursor at the operand. Spacing
around the signs is skipped. -/
def signsAt : Nat → List Char → List (Sign × Nat) × Cursor
  | offset, [] => ([], ⟨offset, []⟩)
  | offset, c :: cs =>
    if isSpacing c then signsAt (offset + 1) cs
    else if startsInfinity (c :: cs) then ([], ⟨offset, c :: cs⟩)
    else
      match sign? c with
      | none => ([], ⟨offset, c :: cs⟩)
      | some s =>
        let (more, operand) := signsAt (offset + 1) cs
        ((s, offset) :: more, operand)

/-- The signs in front of an operand. -/
def signs : Parser (List (Sign × Nat)) := fun c => .ok (signsAt c.offset c.rest)

end DerivedStats.Grammar
