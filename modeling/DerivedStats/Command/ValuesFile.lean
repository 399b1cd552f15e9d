import DerivedStats.Decimal.Basic
import DerivedStats.Text.Dictionary

/-!
# Values files

A values file is a JSON object that maps the texts of statistics to numbers or to lists of numbers.
Every other JSON value and every text that is not JSON are refused alike. Of members with one key
the last counts.

A number is read in two steps: its digits as a natural number below `2 ^ 64`, as far as they fit,
and then one multiplication or division of doubles by a power of ten. The result may differ from
the nearest double in the last place; a result beyond the range of doubles is refused.
-/

namespace DerivedStats.ValuesFile

/-- What a values file holds for a statistic. -/
inductive Entry where
  | one (value : Float)
  | many (values : List Float)
deriving Inhabited

/-- The values of an entry; a single number is a list of one. -/
def Entry.values : Entry → List Float
  | one x => [x]
  | many xs => xs

/-- A reading of the front of a text: what was read, and the rest. -/
abbrev Reader (α : Type) := List Char → Option (α × List Char)

/-- The rest of a text without white space at its front. -/
def skipSpace (cs : List Char) : List Char :=
  cs.dropWhile fun c => c = ' ' || c = '\n' || c = '\t' || c = '\r'

/-- The rest behind a given character, with white space around it skipped. -/
def behind? (x : Char) (cs : List Char) : Option (List Char) :=
  match skipSpace cs with
  | c :: rest => if c = x then some (skipSpace rest) else none
  | [] => none

/-! ## Numbers -/

/-- A significand with the power of ten that belongs to it. -/
structure Scaled where
  significand : Nat
  exponent : Int

/-- The greatest significand. -/
def significandLimit : Nat := 0xFFFFFFFFFFFFFFFF

/-- The digit appended to a significand, if the limit allows it. -/
def appendDigit? (significand : Nat) (c : Char) : Option Nat :=
  let n := significand * 10 + (c.toNat - '0'.toNat)
  if n ≤ significandLimit then some n else none

/-- The digits in front of the point; from the first one that does not fit, each counts as a zero.
-/
def scaleWhole : Nat → List Char → Scaled
  | significand, [] => ⟨significand, 0⟩
  | significand, c :: cs =>
    match appendDigit? significand c with
    | some n => scaleWhole n cs
    | none => ⟨significand, (c :: cs).length⟩

/-- The digits behind the point; from the first one that does not fit, they are of no account. -/
def scaleFraction : Scaled → List Char → Scaled
  | s, [] => s
  | s, c :: cs =>
    match appendDigit? s.significand c with
    | some n => scaleFraction ⟨n, s.exponent - 1⟩ cs
    | none => s

/-- The double nearest to a power of ten. -/
def powerOfTen (n : Nat) : Float := (Decimal.mk 1 n).toFloat

/-- A double times a power of ten, in steps that doubles have room for; `none` beyond their range.
-/
def scaleBy (x : Float) (e : Int) : Option Float :=
  if e.natAbs ≤ 308 then
    if 0 ≤ e then
      let y := x * powerOfTen e.toNat
      if y.isInf then none else some y
    else some (x / powerOfTen e.natAbs)
  else if x == 0.0 then some x
  else if 0 ≤ e then none
  else scaleBy (x / powerOfTen 308) (e + 308)
termination_by e.natAbs

/-- The greatest magnitude of a power of ten that is computed with. -/
def exponentLimit : Nat := 0x7FFFFFFF

/-- The value of a number from its parts; `power` holds the sign and the digits of the power of
ten. -/
def numberOfParts? (negative : Bool) (whole fraction : List Char)
    (power : Option (Bool × List Char)) : Option Float :=
  let s := scaleFraction (scaleWhole 0 whole) fraction
  let (down, digits) := power.getD (false, [])
  let e := Nat.ofDigitChars 10 digits 0
  let magnitude :=
    if e > exponentLimit then if s.significand ≠ 0 ∧ !down then none else some 0.0
    else
      let e := if down then s.exponent - e else s.exponent + e
      scaleBy (Decimal.mk s.significand 0).toFloat e
  magnitude.map fun x => if negative then -x else x

/-- A run of digits, at least one. -/
def digits1 : Reader (List Char) := fun cs =>
  match cs.span Char.isDigit with
  | ([], _) => none
  | (ds, rest) => some (ds, rest)

/-- The digits in front of the point: a zero stands alone. -/
def wholePart : Reader (List Char) := fun cs => do
  let (ds, rest) ← digits1 cs
  if ds.head? = some '0' ∧ ds.length > 1 then none else some (ds, rest)

/-- The digits behind the point, if there is a point. -/
def fractionPart : Reader (List Char)
  | '.' :: cs => digits1 cs
  | cs => some ([], cs)

/-- The sign of a power of ten. -/
def powerSign : List Char → Bool × List Char
  | '-' :: cs => (true, cs)
  | '+' :: cs => (false, cs)
  | cs => (false, cs)

/-- The power of ten, if there is one. -/
def powerPart : Reader (Option (Bool × List Char))
  | c :: cs =>
    if c = 'e' ∨ c = 'E' then do
      let (down, rest) := powerSign cs
      let (ds, rest) ← digits1 rest
      some (some (down, ds), rest)
    else some (none, c :: cs)
  | [] => some (none, [])

/-- A number behind its sign. -/
def unsignedNumber (negative : Bool) : Reader Float := fun cs => do
  let (whole, cs) ← wholePart cs
  let (fraction, cs) ← fractionPart cs
  let (power, cs) ← powerPart cs
  let x ← numberOfParts? negative whole fraction power
  return (x, cs)

/-- A number. -/
def number : Reader Float
  | '-' :: cs => unsignedNumber true cs
  | cs => unsignedNumber false cs

/-! ## Texts -/

/-- The value of a hexadecimal digit. -/
def hexDigit? (c : Char) : Option Nat :=
  if '0' ≤ c ∧ c ≤ '9' then some (c.toNat - '0'.toNat)
  else if 'a' ≤ c ∧ c ≤ 'f' then some (c.toNat - 'a'.toNat + 10)
  else if 'A' ≤ c ∧ c ≤ 'F' then some (c.toNat - 'A'.toNat + 10)
  else none

/-- A unit of four hexadecimal digits. -/
def hexUnit? (a b c d : Char) : Option Nat := do
  let a ← hexDigit? a
  let b ← hexDigit? b
  let c ← hexDigit? c
  let d ← hexDigit? d
  return ((a * 16 + b) * 16 + c) * 16 + d

/-- The character that two units of a surrogate pair make up. -/
def ofSurrogates? (high low : Nat) : Option Char :=
  if 0xDC00 ≤ low ∧ low < 0xE000 then
    some (Char.ofNat (0x10000 + (high - 0xD800) * 0x400 + (low - 0xDC00)))
  else none

/-- The character that a backslash and the given one stand for. -/
def simpleEscape? (c : Char) : Option Char :=
  match c with
  | '"' | '\\' | '/' => some c
  | 'b' => some '\x08'
  | 'f' => some '\x0c'
  | 'n' => some '\n'
  | 'r' => some '\r'
  | 't' => some '\t'
  | _ => none

/-- The rest of a text in quotes, up to and with the closing quote. -/
def quotedRest : Reader (List Char)
  | '"' :: rest => some ([], rest)
  | '\\' :: 'u' :: a :: b :: c :: d :: '\\' :: 'u' :: a' :: b' :: c' :: d' :: rest =>
    match hexUnit? a b c d with
    | none => none
    | some high =>
      if 0xD800 ≤ high ∧ high < 0xDC00 then do
        let low ← hexUnit? a' b' c' d'
        let x ← ofSurrogates? high low
        let (more, rest) ← quotedRest rest
        return (x :: more, rest)
      else if 0xDC00 ≤ high ∧ high < 0xE000 then none
      else do
        let (more, rest) ← quotedRest ('\\' :: 'u' :: a' :: b' :: c' :: d' :: rest)
        return (Char.ofNat high :: more, rest)
  | '\\' :: 'u' :: a :: b :: c :: d :: rest =>
    match hexUnit? a b c d with
    | none => none
    | some n =>
      if 0xD800 ≤ n ∧ n < 0xE000 then none
      else do
        let (more, rest) ← quotedRest rest
        return (Char.ofNat n :: more, rest)
  | '\\' :: c :: rest => do
    let x ← simpleEscape? c
    let (more, rest) ← quotedRest rest
    return (x :: more, rest)
  | c :: rest =>
    if c.toNat < 0x20 ∨ c = '\\' then none
    else do
      let (more, rest) ← quotedRest rest
      return (c :: more, rest)
  | [] => none
termination_by cs => cs.length

/-- A text in quotes. -/
def quoted : Reader String
  | '"' :: cs => (quotedRest cs).map fun (s, rest) => (String.ofList s, rest)
  | _ => none

/-! ## Lists and objects -/

/-- Further items behind commas up to the closing character, at most `budget` of them. -/
def itemsFrom {α : Type} (item : Reader α) (close : Char) : Nat → Reader (List α)
  | 0, _ => none
  | budget + 1, cs =>
    match behind? close cs with
    | some rest => some ([], rest)
    | none => do
      let cs ← behind? ',' cs
      let (first, cs) ← item cs
      let (more, rest) ← itemsFrom item close budget cs
      return (first :: more, rest)

/-- Items with commas between them, up to the closing character; each takes a character, so the
characters left are budget enough. -/
def items {α : Type} (item : Reader α) (close : Char) : Reader (List α) := fun cs =>
  match behind? close cs with
  | some rest => some ([], rest)
  | none => do
    let (first, rest) ← item cs
    let (more, rest) ← itemsFrom item close (rest.length + 1) rest
    return (first :: more, rest)

/-- A number or a list of numbers. -/
def entry : Reader Entry := fun cs =>
  match behind? '[' cs with
  | some rest => do
    let (xs, rest) ← items number ']' rest
    return (.many xs, rest)
  | none => do
    let (x, rest) ← number cs
    return (.one x, rest)

/-- A key with its entry. -/
def member : Reader (String × Entry) := fun cs => do
  let (key, rest) ← quoted cs
  let rest ← behind? ':' rest
  let (e, rest) ← entry rest
  return ((key, e), rest)

/-- The entries of a values file by key; `none` if it is not of the required form. -/
def read? (text : String) : Option (Dictionary Entry) := do
  let cs ← behind? '\x7b' text.toList
  let (members, rest) ← items member '\x7d' cs
  if (skipSpace rest).isEmpty then some (.ofList members) else none

end DerivedStats.ValuesFile
