import DerivedStats.Grammar.Fault
import DerivedStats.Grammar.Phrase

/-!
# Reading source texts

A text is read in two passes: the check of its characters, then the grammar. The first fault ends
the reading. A whole text can be a definition, an expression, a list of arguments or a single
mention.
-/

namespace DerivedStats

namespace Grammar

/-- Reads a whole text with a parser that reaches its end. -/
def read {α : Type} (p : Parser α) (source : String) : Except Fault α :=
  match firstStray? source.toList with
  | some (offset, c) => .error (.stray offset c)
  | none =>
    match p (.start source.toList) with
    | .ok (a, _) => .ok a
    | .error failure => .error (.mismatch failure)

/-- Reads a whole text, with faults reported about it. -/
def readText {α : Type} (p : Parser α) (source : String) : Except Report α :=
  (read p source).mapError (Fault.toReport source)

end Grammar

open Grammar

/-- Reads the definition of a derived statistic. -/
def Assignment.ofText (source : String) : Except Report Assignment := readText assignment source

/-- Reads an expression. -/
def Expr.ofText (source : String) : Except Report Expr := readText (complete expression) source

/-- Reads expressions with commas between them. -/
def Expr.listOfText (source : String) : Except Report (List Expr) :=
  readText (complete (arguments expression)) source

/-- Reads a single mention. -/
def Mention.ofText (source : String) : Except Report (Mention × Span) := readText soleMention source

end DerivedStats
