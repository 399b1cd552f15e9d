import DerivedStats.Text.Blank

/-!
# Characters of the expression language

The classes of characters that tokens are made of, and the check that a source text holds nothing
else. The check reads the text once, from left to right, in one of three modes: between tokens,
behind the first half of a two-character operator, and inside quotes.
-/

namespace DerivedStats.Grammar

/-- A letter from `A` to `Z` or `a` to `z`. -/
def isLetter (c : Char) : Bool := ('A' ≤ c && c ≤ 'Z') || ('a' ≤ c && c ≤ 'z')

/-- A digit from `0` to `9`. -/
def isDigit (c : Char) : Bool := '0' ≤ c && c ≤ '9'

/-- What a name can start with. -/
def isNameStart (c : Char) : Bool := isLetter c || c = '_'

/-- What a name can hold. -/
def isNameChar (c : Char) : Bool := isNameStart c || isDigit c

/-- What a dimension value other than the wildcard can hold. -/
def isValueChar (c : Char) : Bool := isNameChar c || c = '.' || c = '-'

/-- What the grammar skips between tokens. -/
def isSpacing (c : Char) : Bool := c = ' ' || c = '\t' || c = '\r' || c = '\n'

/-- Characters that are tokens of their own or start `==`, `<=` and `>=`. -/
def isPunctuation (c : Char) : Bool := "+-*/()<>=?:,.\x7b\x7d".toList.contains c

/-- The second half of the operator that starts with `!`, `&` or `|`. -/
def partner? (c : Char) : Option Char :=
  if c = '!' then some '='
  else if c = '&' ∨ c = '|' then some c
  else none

/-- What the character check is reading. -/
inductive Mode where
  /-- Between tokens. -/
  | plain
  /-- Behind the character `first`, which stood at byte `offset` and wants `second`. -/
  | half (offset : Nat) (first second : Char)
  /-- Behind the quote at byte `offset`. -/
  | quoted (offset : Nat)

/-- The first character that fits no token, with its byte offset. An operator that is cut short is
blamed on its first half, quotes that are not closed on the opening quote. -/
def stray? : Mode → Nat → List Char → Option (Nat × Char)
  | .plain, _, [] => none
  | .half offset first _, _, [] => some (offset, first)
  | .quoted offset, _, [] => some (offset, '"')
  | .plain, offset, c :: cs =>
    if isNameChar c || Text.isBlank c || isPunctuation c then
      stray? .plain (offset + c.utf8Size) cs
    else if c = '"' then stray? (.quoted offset) (offset + 1) cs
    else
      match partner? c with
      | some second => stray? (.half offset c second) (offset + 1) cs
      | none => some (offset, c)
  | .half start first second, offset, c :: cs =>
    if c = second then stray? .plain (offset + 1) cs else some (start, first)
  | .quoted start, offset, c :: cs =>
    if c = '"' then stray? .plain (offset + 1) cs
    else if c = '*' || isValueChar c then stray? (.quoted start) (offset + 1) cs
    else some (offset, c)

/-- The first character of a source text that fits no token. -/
def firstStray? (source : List Char) : Option (Nat × Char) := stray? .plain 0 source

end DerivedStats.Grammar
