import DerivedStats.Grammar.Alphabet
import DerivedStats.Source.Span
import DerivedStats.Text.Utf8

/-!
# Parsers

A parser reads from a cursor and answers a value with the cursor behind it, or a failure. A failure
remembers where it arose, which rules were in progress and what was expected there. It is *final*
once the text has shown which rule is meant; a failure that is not final lets a choice try its next
alternative and an optional phrase be absent. A choice in which no alternative succeeds fails like
its last alternative.
-/

namespace DerivedStats.Grammar

/-- The rules of the grammar that failures name. -/
inductive Rule where
  | assignment
  | expression
  | conditional
  | primary
  | call
  | arguments
  | mention
  | dimension
deriving DecidableEq, Inhabited

/-- The name of a rule as it is reported. -/
def Rule.name : Rule → String
  | assignment => "assignment"
  | expression => "expression"
  | conditional => "ternary"
  | primary => "primary"
  | call => "aggregateCall"
  | arguments => "aggregateArguments"
  | mention => "statRef"
  | dimension => "dimension"

/-- What the grammar wants at a place. -/
inductive Expectation where
  | operand
  | endOfInput
  | dimensionKey
  | dimensionValue
  | character (c : Char)
deriving DecidableEq, Inhabited

/-- How an expectation is reported. -/
def Expectation.text : Expectation → String
  | operand => "operand"
  | endOfInput => "end of input"
  | dimensionKey => "dimension key"
  | dimensionValue => "dimension value"
  | character c => "`" ++ c.toString ++ "`"

/-- A place in a source text: its byte offset and the text from there on. -/
structure Cursor where
  offset : Nat
  rest : List Char
deriving DecidableEq, Inhabited

namespace Cursor

/-- The cursor behind a piece of the text. -/
def past (c : Cursor) (piece rest : List Char) : Cursor :=
  ⟨c.offset + Text.byteLength piece, rest⟩

/-- The start of a source text. -/
def start (source : List Char) : Cursor := ⟨0, source⟩

end Cursor

/-- Why a parser could not go on. -/
structure Failure where
  /-- Where the text stopped fitting. -/
  place : Cursor
  /-- No other reading of the text is to be tried. -/
  final : Bool
  /-- The rules in progress, outermost first. -/
  rules : List Rule
  /-- What was expected, without repetitions. -/
  expected : List Expectation
deriving DecidableEq, Inhabited

/-- A function that reads a phrase from a cursor. -/
def Parser (α : Type) : Type := Cursor → Except Failure (α × Cursor)

namespace Parser

variable {α β : Type}

instance : Monad Parser where
  pure a := fun c => .ok (a, c)
  bind p f := fun c =>
    match p c with
    | .error failure => .error failure
    | .ok (a, c) => f a c

theorem pure_apply (a : α) (c : Cursor) : (pure a : Parser α) c = .ok (a, c) := rfl

theorem bind_apply (p : Parser α) (f : α → Parser β) (c : Cursor) :
    (p >>= f) c =
      match p c with
      | .error failure => .error failure
      | .ok (a, c) => f a c := rfl

/-- The byte offset of the cursor. -/
def offset : Parser Nat := fun c => .ok (c.offset, c)

/-- The number of characters behind the cursor. -/
def remaining : Parser Nat := fun c => .ok (c.rest.length, c)

/-- Fails here; the failure is not final. -/
def fail : Parser α := fun c => .error ⟨c, false, [], []⟩

/-- One character of a class. -/
def satisfy (p : Char → Bool) : Parser Char := fun c =>
  match c.rest with
  | x :: rest => if p x then .ok (x, c.past [x] rest) else fail c
  | [] => fail c

/-- The given character. -/
def character (x : Char) : Parser Unit := do let _ ← satisfy (· = x)

/-- The given word. -/
def word (w : List Char) : Parser Unit := fun c =>
  if w.isPrefixOf c.rest then .ok ((), c.past w (c.rest.drop w.length)) else fail c

/-- The longest run of characters of a class, which may be empty. -/
def run (p : Char → Bool) : Parser (List Char) := fun c =>
  let taken := c.rest.takeWhile p
  .ok (taken, c.past taken (c.rest.dropWhile p))

/-- The longest run of characters of a class, at least one. -/
def run1 (p : Char → Bool) : Parser (List Char) := do
  let first ← satisfy p
  let more ← run p
  return first :: more

/-- Skips what may stand between tokens. -/
def spacing : Parser Unit := do let _ ← run isSpacing

/-- Succeeds at the end of the text. -/
def endOfText : Parser Unit := fun c => if c.rest.isEmpty then .ok ((), c) else fail c

/-- A phrase or nothing; nothing is read if the phrase is not there. -/
def optional (p : Parser α) : Parser (Option α) := fun c =>
  match p c with
  | .ok (a, c) => .ok (some a, c)
  | .error failure => if failure.final then .error failure else .ok (none, c)

/-- The first phrase, or the second one if the first is not there. -/
def orElse (p q : Parser α) : Parser α := fun c =>
  match p c with
  | .ok r => .ok r
  | .error failure => if failure.final then .error failure else q c

instance : OrElse (Parser α) where
  orElse p q := p.orElse (q ())

theorem orElse_apply (p q : Parser α) (c : Cursor) :
    (p <|> q) c =
      match p c with
      | .ok r => .ok r
      | .error failure => if failure.final then .error failure else q c := rfl

/-- The phrase with its failures changed. -/
def mapFailure (f : Failure → Failure) (p : Parser α) : Parser α := fun c =>
  match p c with
  | .ok r => .ok r
  | .error failure => .error (f failure)

/-- The phrase, with every failure of it final. -/
def committed (p : Parser α) : Parser α := p.mapFailure fun f => { f with final := true }

/-- The phrase, with the rule noted in every failure of it. -/
def labelled (r : Rule) (p : Parser α) : Parser α :=
  p.mapFailure fun f => { f with rules := r :: f.rules }

/-- The phrase, with the expectation noted in every failure of it, once. -/
def expecting (x : Expectation) (p : Parser α) : Parser α :=
  p.mapFailure fun f =>
    { f with expected := if x ∈ f.expected then f.expected else f.expected ++ [x] }

/-- The given character, which is expected here. -/
def expectedCharacter (x : Char) : Parser Unit := expecting (.character x) (character x)

/-- Further phrases, each behind a comma, at most `budget` of them. -/
def furtherItems (item : Parser α) : Nat → Parser (List α)
  | 0 => pure []
  | budget + 1 => do
    match ← optional (do spacing; character ','; item) with
    | none => pure []
    | some first => do
      let more ← furtherItems item budget
      return first :: more

/-- One or more phrases with commas between them. As every comma takes a character, the characters
left are budget enough. -/
def commaSeparated (item : Parser α) : Parser (List α) := do
  let first ← item
  let budget ← remaining
  let more ← furtherItems item budget
  return first :: more

end Parser

end DerivedStats.Grammar
