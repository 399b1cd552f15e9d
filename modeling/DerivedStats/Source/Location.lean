import DerivedStats.Source.Span
import DerivedStats.Text.Utf8

/-!
# Locations

Where a span starts, for a human reader: line and column count from one, and the column counts
characters, not bytes. A span that starts past the end or inside a character is shown at the end of
the text.
-/

namespace DerivedStats

/-- A place in a source text, with the byte extent of what stands there. -/
structure Location where
  line : Nat
  column : Nat
  offset : Nat
  length : Nat
deriving DecidableEq, Inhabited

namespace Location

/-- What follows the last line feed of a text. -/
def lastLine (cs : List Char) : List Char := (cs.reverse.takeWhile (· ≠ '\n')).reverse

/-- The text in front of a byte offset; the whole text if there is no character boundary. -/
def before (offset : Nat) (source : List Char) : List Char :=
  (Text.takeBytes? offset source).getD source

/-- The place where a span starts in the text that it was taken from. -/
def ofSpan (span : Span) (source : String) : Location :=
  let front := before span.start source.toList
  { line := front.count '\n' + 1
    column := (lastLine front).length + 1
    offset := span.start
    length := span.length }

/-- Line and column with a colon between them. -/
def text (l : Location) : String := toString l.line ++ ":" ++ toString l.column

/-- In front of an offset stands the text whose bytes it counts. -/
@[simp] theorem before_byteLength (front back : List Char) :
    before (Text.byteLength front) (front ++ back) = front := by
  simp [before, Text.takeBytes?_append]

end Location

end DerivedStats
