import DerivedStats.Diagnostic.Code
import DerivedStats.Source.Location
import DerivedStats.Text.Lines

/-!
# Diagnostics

A fault made ready for a reader: a headline, the source line with carets under the offending place,
the grammar rules that were being read and a piece of advice.
-/

namespace DerivedStats

/-- How the parts of a diagnostic are set off. -/
inductive Palette where
  /-- Text only. -/
  | plain
  /-- Terminal escapes: bold red for the alarm, cyan for the place. -/
  | ansi
deriving DecidableEq, Inhabited

namespace Palette

/-- Text set off as an alarm. -/
def alarm (p : Palette) (s : String) : String :=
  match p with
  | .plain => s
  | .ansi => "\x1b[1;31m" ++ s ++ "\x1b[0m"

/-- Text set off as a place. -/
def place (p : Palette) (s : String) : String :=
  match p with
  | .plain => s
  | .ansi => "\x1b[36m" ++ s ++ "\x1b[0m"

end Palette

/-- A reportable message with its place and advice. -/
structure Diagnostic where
  code : Code
  message : String
  location : Option Location
  help : Option String
  /-- Names of the grammar rules in progress, outermost first. -/
  rules : List String
deriving DecidableEq, Inhabited

namespace Diagnostic

/-- The diagnostic in one line. -/
def text (d : Diagnostic) : String :=
  "error: " ++ d.code.text ++ " - " ++ d.message ++
    match d.location with
    | some l => " at " ++ l.text
    | none => ""

/-- The first line of the rendered form. -/
def headline (d : Diagnostic) (palette : Palette) : String :=
  palette.alarm ("error[" ++ d.code.text ++ "]") ++ ": " ++ d.message ++
    match d.location with
    | some l => " at " ++ palette.place l.text
    | none => ""

/-- Blanks up to the column of a location, then one caret for each byte of its extent and at least
one. -/
def carets (l : Location) : List Char :=
  List.replicate (l.column - 1) ' ' ++ List.replicate (max l.length 1) '^'

/-- The line of the source that a location names, with the carets below it; nothing if the source
has no such line. -/
def excerpt (l : Location) (palette : Palette) (source : String) : String :=
  match (Text.shownLines source.toList)[l.line - 1]? with
  | some line =>
    "\n  | " ++ String.ofList line ++ "\n  | " ++ palette.alarm (String.ofList (carets l))
  | none => ""

/-- The full form of a diagnostic for the source that it is about. -/
def render (d : Diagnostic) (palette : Palette) (source : String) : String :=
  d.headline palette
    ++ (match d.location with
        | some l => excerpt l palette source
        | none => "")
    ++ (if d.rules.isEmpty then "" else "\n  = rules: " ++ " > ".intercalate d.rules)
    ++ (match d.help with
        | some advice => "\n  = help: " ++ advice
        | none => "")

end Diagnostic

end DerivedStats
