import DerivedStats.Diagnostic.Report

/-!
# Failures of a command

Why a command did not print a result. Behind a refused key of a values file there is the report that
explains it; a formula that is refused or misused is a report itself.
-/

namespace DerivedStats.Command

/-- Why a command failed. -/
inductive Failure where
  /-- The formula or its values. -/
  | report (r : Report)
  /-- A key of the values file that is not a statistic. -/
  | invalidKey (key : String) (cause : Report)
  /-- A list where the values file may hold single numbers only. -/
  | notSingle (key : String)
  /-- A values file of another form. -/
  | malformedValues
  /-- A values file that could not be read, and what the system said. -/
  | unreadable (path : String) (reason : String)
  /-- A placeholder argument without an equals sign. -/
  | placeholderForm (argument : String)
  /-- A placeholder argument without a key. -/
  | placeholderKey (argument : String)
deriving DecidableEq, Inhabited

namespace Failure

/-- The failure in one line. -/
def message : Failure → String
  | report r => r.text
  | invalidKey key _ => "Invalid statistic reference `" ++ key ++ "`"
  | notSingle key => "`" ++ key ++ "` must map to a single number"
  | malformedValues =>
    "Values must be a JSON object mapping statistic references to numbers or arrays"
  | unreadable path _ => "Failed to read values file: " ++ path
  | placeholderForm argument =>
    "Invalid placeholder format: " ++ argument ++ ". Expected key=value"
  | placeholderKey argument => "Invalid placeholder format: " ++ argument ++ ". Key is empty"

/-- The report behind a failure. -/
def cause? : Failure → Option Report
  | report r | invalidKey _ r => some r
  | _ => none

/-- The failure with the alarm in front of its message. -/
def headline (palette : Palette) (f : Failure) : String :=
  palette.alarm "error:" ++ " " ++ f.message

/-- The failure for a reader; reports are shown in the source they are about, which is the formula
unless they quote a text of their own. -/
def render (palette : Palette) (source : String) : Failure → String
  | report r => r.render palette source
  | invalidKey key r =>
    (invalidKey key r).headline palette ++ "\n" ++ r.render palette source
  | unreadable path reason => (unreadable path reason).headline palette ++ ": " ++ reason
  | f => f.headline palette

end Failure

end DerivedStats.Command
