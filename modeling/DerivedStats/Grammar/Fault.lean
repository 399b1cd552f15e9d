import DerivedStats.Diagnostic.Report
import DerivedStats.Grammar.Lexeme

/-!
# Faults of a source text

A text is refused for a character that fits no token, or because a token is not one that the
grammar wants. The second kind names the offending token: a word for an infinity, a run of name
characters, an operator of two characters, or else a single character.
-/

namespace DerivedStats.Grammar

/-- The operators and operator-like tokens of two characters. -/
def twoCharacterTokens : List (List Char) :=
  ["==".toList, "!=".toList, "<=".toList, ">=".toList, "&&".toList, "||".toList]

/-- The token at the start of a text; there is none at the end of the text. -/
def tokenAt? : List Char → Option (List Char)
  | [] => none
  | c :: cs =>
    let text := c :: cs
    if startsInfinity text then some (text.take 4)
    else if isNameChar c then some (text.takeWhile isNameChar)
    else if twoCharacterTokens.contains (text.take 2) then some (text.take 2)
    else some [c]

/-- Why a source text is refused. -/
inductive Fault where
  /-- A character that no token can hold, at a byte offset. -/
  | stray (offset : Nat) (c : Char)
  /-- A place where the grammar could not go on. -/
  | mismatch (failure : Failure)
deriving DecidableEq, Inhabited

namespace Fault

/-- The number of the fault. -/
def code : Fault → Code
  | stray _ _ => .strayCharacter
  | mismatch f => if f.place.rest.isEmpty then .unexpectedEnd else .mismatchedInput

/-- The message of the fault. -/
def message : Fault → String
  | stray _ c => "token recognition error at: '" ++ c.toString ++ "'"
  | mismatch f =>
    let token :=
      match tokenAt? f.place.rest with
      | some token => String.ofList token
      | none => "<EOF>"
    "mismatched input '" ++ token ++ "'" ++
      if f.expected.isEmpty then ""
      else " expecting " ++ ", ".intercalate (f.expected.map Expectation.text)

/-- The span of the offending character or token; empty at the end of the text. -/
def span : Fault → Span
  | stray offset c => ⟨offset, offset + c.utf8Size⟩
  | mismatch f =>
    let start := f.place.offset
    ⟨start, start + Text.byteLength ((tokenAt? f.place.rest).getD [])⟩

/-- The rules in progress, outermost first. -/
def rules : Fault → List String
  | stray _ _ => []
  | mismatch f => f.rules.map Rule.name

/-- The fault as a report about the text it was found in. -/
def toReport (source : String) (fault : Fault) : Report :=
  .malformed fault.code fault.message source (.ofSpan fault.span source) fault.rules

end Fault

end DerivedStats.Grammar
