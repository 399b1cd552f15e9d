import DerivedStats.Diagnostic.Report
import DerivedStats.Statistic.Basic

/-!
# Misuse of values

What can go wrong once an expression is read: a sequence where one number is wanted, several values
for a mention that no aggregate encloses, and a number of samples other than one where the
placeholders leave room for one only. Statistics without a value are no misuse; they count as zero.
-/

namespace DerivedStats

/-- Why an evaluation or a substitution has no answer. -/
inductive Misuse where
  /-- A sequence of values stands where a single number is wanted. -/
  | sequenceAsScalar (span : Option Span)
  /-- A mention outside all aggregates has several values. -/
  | multipleValues (statistic : Statistic) (count : Nat) (span : Span)
  /-- A statistic has other than one sample. -/
  | sampleCount (statistic : Statistic) (count : Nat)
deriving DecidableEq, Inhabited

namespace Misuse

/-- The number of the misuse. -/
def code : Misuse → Code
  | sequenceAsScalar _ => .sequenceAsScalar
  | multipleValues _ _ _ => .multipleValues
  | sampleCount _ _ => .sampleCount

/-- The message of the misuse. -/
def message : Misuse → String
  | sequenceAsScalar _ => "Sequence used where a scalar was expected"
  | multipleValues s n _ =>
    "Unrecoverable error during expression evaluation. " ++ s.text ++ " has " ++ toString n
      ++ " values outside an aggregate"
  | sampleCount s n =>
    "Placeholder value must contain exactly one element, " ++ s.text ++ " has " ++ toString n

/-- Where the misuse is, if it is at a place of the source. -/
def span? : Misuse → Option Span
  | sequenceAsScalar s => s
  | multipleValues _ _ s => some s
  | sampleCount _ _ => none

/-- The misuse as a report that names no source. -/
def toReport (m : Misuse) : Report := .evaluation m.code m.message none none

/-- The misuse as a report about the source it was found in; the offending piece of the source is
the context. -/
def toReportIn (source : String) (m : Misuse) : Report :=
  match m.span? with
  | none => m.toReport
  | some span =>
    let snippet := (Text.slice? span.start span.stop source.toList).getD []
    (m.toReport.locatedAt (.ofSpan span source)).withContext (String.ofList snippet)

end Misuse

end DerivedStats
