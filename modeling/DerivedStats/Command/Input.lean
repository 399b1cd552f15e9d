import DerivedStats.Command.Failure
import DerivedStats.Command.ValuesFile
import DerivedStats.Formula.Basic

/-!
# Inputs of a command

Values files and placeholder arguments turned into tables and dictionaries. The entries of a values
file are taken in ascending order of their keys; the first one that is refused ends the reading,
and of several keys for one statistic the last counts.
-/

namespace DerivedStats.Command

open ValuesFile (Entry)

/-- The entries of the text of a values file, in ascending order of the keys. -/
def readEntries (text : String) : Except Failure (List (String × Entry)) :=
  match ValuesFile.read? text with
  | some d => .ok d.pairs
  | none => .error .malformedValues

/-- The statistic that a key of a values file mentions. -/
def statisticOfKey (key category : String) : Except Failure Statistic :=
  (Statistic.ofText key category).mapError (.invalidKey key)

/-- The single values of a values file. -/
def readValues (text category : String) : Except Failure Values := do
  let entries ← readEntries text
  entries.foldlM (fun t (key, entry) => do
      let s ← statisticOfKey key category
      match entry with
      | .one x => return t.insert s x
      | .many _ => .error (.notSingle key))
    Table.empty

/-- The sample lists of a values file; a single number is a list of one. -/
def readSamples (text category : String) : Except Failure Samples := do
  let entries ← readEntries text
  entries.foldlM (fun t (key, entry) => do
      let s ← statisticOfKey key category
      return t.insert s entry.values)
    Table.empty

/-- A text without the blanks at its two ends. -/
def trimmed (cs : List Char) : String := String.ofList (Text.trim cs)

/-- The key and value of a placeholder argument `key=value`; blanks around them are dropped. -/
def readPlaceholder (argument : String) : Except Failure (String × String) :=
  match argument.toList.span (· ≠ '=') with
  | (_, []) => .error (.placeholderForm argument)
  | (key, _ :: value) =>
    if (trimmed key).isEmpty then .error (.placeholderKey argument)
    else .ok (trimmed key, trimmed value)

/-- The placeholders of several arguments; of arguments with one key the last counts. -/
def readPlaceholders (arguments : List String) : Except Failure Placeholders := do
  return .ofList (← arguments.mapM readPlaceholder)

end DerivedStats.Command
