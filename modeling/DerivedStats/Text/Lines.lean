/-!
# Lines of a text

A text is split at its line feeds. `splitLines` keeps every piece, also an empty one at an end;
`shownLines` is the list a reader sees: a carriage return in front of a line feed belongs to the
line end, and an empty piece after the last line feed is not a line.
-/

namespace DerivedStats.Text

/-- The pieces between the line feeds of a text; there is always at least one. -/
def splitLines : List Char → List (List Char)
  | [] => [[]]
  | c :: cs =>
    if c = '\n' then [] :: splitLines cs
    else
      match splitLines cs with
      | [] => [[c]]
      | line :: lines => (c :: line) :: lines

/-- There is always at least one piece. -/
theorem splitLines_ne_nil (cs : List Char) : splitLines cs ≠ [] := by
  cases cs with
  | nil => simp [splitLines]
  | cons c cs =>
    rw [splitLines]
    split
    · simp
    · split <;> simp

/-- A line without the carriage return at its end. -/
def stripReturn (line : List Char) : List Char :=
  if line.getLast? = some '\r' then line.dropLast else line

/-- The lines of a text as they are shown: line ends are removed, and a text that ends in a line
feed has no further line. -/
def shownLines (cs : List Char) : List (List Char) :=
  let pieces := splitLines cs
  let last := pieces.getLast?.getD []
  pieces.dropLast.map stripReturn ++ if last.isEmpty then [] else [last]

end DerivedStats.Text
