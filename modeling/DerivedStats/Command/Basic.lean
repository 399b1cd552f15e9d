import DerivedStats.Command.Input
import DerivedStats.Command.Json
import DerivedStats.Formula.Substitution

/-!
# Commands

The four things that can be done with a formula from the command line: list its dependencies,
evaluate it over single values, evaluate it over samples, and substitute known values in it. A
command answers with a transcript, so that printing is all that is left to do.
-/

namespace DerivedStats.Command

/-- The form of a result. -/
inductive Format where
  | text
  | json
deriving DecidableEq, Inhabited

/-- The format that a name asks for; every name but `json` asks for text. -/
def Format.ofName (name : String) : Format :=
  if name.toLower = "json" then .json else .text

/-- The palette that a colour mode asks for: `always` and `never` by name, and by every other name
the one for a terminal where errors go to one. -/
def paletteOfMode (terminal : Bool) (mode : String) : Palette :=
  if mode.toLower = "always" then .ansi
  else if mode.toLower = "never" then .plain
  else if terminal then .ansi
  else .plain

/-- What to do with a formula. -/
inductive Action where
  | dependencies
  /-- Evaluation over single values, with placeholder arguments. -/
  | evaluate (placeholders : List String)
  | evaluateSamples
  | substitute
deriving DecidableEq, Inhabited

/-- What a values file holds, or what the system said when it was opened. -/
structure File where
  path : String
  content : Except String String

/-- A command with all that it needs. -/
structure Request where
  action : Action
  source : String
  category : String
  format : Format
  verbose : Bool
  /-- The values file; without one there are no values. -/
  file : Option File

/-- What a command prints and notes, and why it failed if it did. -/
structure Transcript where
  output : String := ""
  /-- What goes to the error stream before any failure. -/
  remarks : String := ""
  failure : Option Failure := none
  events : List Event := []
deriving Inhabited

namespace Transcript

/-- The transcript with a failure. -/
def failing (t : Transcript) (f : Failure) : Transcript := { t with failure := some f }

/-- The transcript with further events. -/
def noting (t : Transcript) (events : List Event) : Transcript :=
  { t with events := t.events ++ events }

/-- The transcript with a remark on a line of its own. -/
def remarking (t : Transcript) (wanted : Bool) (line : String) : Transcript :=
  if wanted then { t with remarks := t.remarks ++ line ++ "\n" } else t

/-- The transcript with a result in the wanted form. -/
def printing (t : Transcript) (format : Format) (text : String) (json : Json) : Transcript :=
  let content := match format with
    | .text => text
    | .json => json.text
  { t with output := t.output ++ content ++ "\n" }

end Transcript

/-- A statistic as JSON, with the members in alphabetic order. -/
def statisticJson (s : Statistic) : Json :=
  let dimensions := s.dimensions.pairs.map fun p => (p.1, Json.string p.2)
  .object <|
    [("category", .string s.category)]
    ++ (if dimensions.isEmpty then [] else [("dimensions", .object dimensions)])
    ++ [("name", .string s.name)]

/-- Dependencies as JSON. -/
def dependenciesJson (d : Dependencies) : Json :=
  .object [("dependents", .array (d.dependents.map statisticJson)),
    ("derived", statisticJson d.derived)]

/-- Dependencies as lines of text. -/
def dependenciesText (d : Dependencies) : String :=
  "derived: " ++ d.derived.text ++
    if d.dependents.isEmpty then "\ndependents: (none)"
    else "\ndependents:" ++ String.join (d.dependents.map fun s => "\n  " ++ s.text)

/-- The value of a formula as JSON. There are no infinities in JSON, nor `NaN`; their texts stand
for them. -/
def valueJson (f : Formula) (x : Float) : Json :=
  .object [("derived", .string f.derived.text),
    ("value", if x.isFinite then .number x else .string (Number.text x))]

/-- The text of a values file. -/
def File.text (file : File) : Except Failure String :=
  match file.content with
  | .ok text => .ok text
  | .error reason => .error (.unreadable file.path reason)

/-- The single values for a request. -/
def Request.values (r : Request) : Except Failure Values :=
  match r.file with
  | none => .ok .empty
  | some file => do readValues (← file.text) r.category

/-- The sample lists for a request. -/
def Request.samples (r : Request) : Except Failure Samples :=
  match r.file with
  | none => .ok .empty
  | some file => do readSamples (← file.text) r.category

/-- Lists the dependencies of a formula. -/
def runDependencies (r : Request) (f : Formula) (t : Transcript) : Transcript :=
  t.printing r.format (dependenciesText f.dependencies) (dependenciesJson f.dependencies)

/-- Prints the value of a formula, or fails with the report. -/
def printValue (r : Request) (f : Formula) (t : Transcript) (value : Except Report Float) :
    Transcript :=
  match value with
  | .error report => t.failing (.report report)
  | .ok x => t.printing r.format (Number.text x) (valueJson f x)

/-- Evaluates a formula over single values. Without placeholder arguments the dimensions of the
derived statistic count. -/
def runEvaluate (r : Request) (f : Formula) (arguments : List String) (t : Transcript) :
    Transcript :=
  match r.values with
  | .error failure => t.failing failure
  | .ok values =>
    let t := t.remarking r.verbose ("Loaded " ++ toString values.size ++ " statistic values")
    if arguments.isEmpty then printValue r f t (f.evaluateValues values)
    else
      match readPlaceholders arguments with
      | .error failure => t.failing failure
      | .ok placeholders => printValue r f t (f.evaluate values placeholders)

/-- Evaluates a formula over samples. -/
def runSamples (r : Request) (f : Formula) (t : Transcript) : Transcript :=
  match r.samples with
  | .error failure => t.failing failure
  | .ok samples =>
    let count := samples.entries.foldl (fun n e => n + e.2.length) 0
    let t := t.remarking r.verbose
      ("Loaded " ++ toString count ++ " samples for " ++ toString samples.size ++ " statistics")
    printValue r f (t.noting (samples.expandingEvents f.derived)) (f.evaluateSamples samples)

/-- Substitutes known values in a formula. -/
def runSubstitute (r : Request) (f : Formula) (t : Transcript) : Transcript :=
  match r.samples with
  | .error failure => t.failing failure
  | .ok samples =>
    let t := t.noting (f.substitutingEvents samples)
    match f.substitute samples with
    | .error report => t.failing (.report report)
    | .ok text => t.printing r.format text (.object [("expression", .string text)])

/-- Carries out a command. The formula is read before the values file. -/
def run (r : Request) : Transcript :=
  match Formula.compile r.source r.category with
  | .error report => Transcript.failing {} (.report report)
  | .ok f =>
    let t := Transcript.noting {} f.compilingEvents
    match r.action with
    | .dependencies => runDependencies r f t
    | .evaluate arguments => runEvaluate r f arguments t
    | .evaluateSamples => runSamples r f t
    | .substitute => runSubstitute r f t

end DerivedStats.Command
