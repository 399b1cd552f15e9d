import DerivedStats.Formula.Basic
import DerivedStats.Syntax.Render

/-!
# Substitution

The text of a formula with known values in place of mentions. One value becomes a number, and so
does an empty list, which counts as zero. Several values become a list, for which only an aggregate
has room. The target of the definition stays.
-/

namespace DerivedStats

/-- The values as a list of expressions, read back from their text. -/
def valueList (values : List Float) : Except Report (List Expr) :=
  Expr.listOfText (",".intercalate (values.map Number.text))

/-- What takes the place of a mention of `s` with the given samples; its span is of no account. -/
def replacement (source : String) (s : Statistic) (site : Site) (samples : List Float) :
    Except Report Expr :=
  match samples with
  | [] => .ok (.literal site.span 0.0)
  | [value] => .ok (.literal site.span value)
  | _ =>
    if site.insideAggregate then do return .list site.span (← valueList samples)
    else .error ((Misuse.multipleValues s samples.length site.span).toReportIn source)

namespace Formula

/-- Puts samples in place of the mentions that have some, and notes each such mention. -/
def substituting (f : Formula) (samples : Samples) : Visitor (List Event) Report :=
  fun journal site =>
    let s := site.mention.resolve f.category
    match samples.get? s with
    | none => (journal, .ok none)
    | some list =>
      (journal ++ [.substituting list.length s],
        (replacement f.source s site list).map some)

/-- The body of the formula with samples in place of mentions. -/
def substitution (f : Formula) (samples : Samples) : Replaced (List Event) Report Expr :=
  f.assignment.body.replaceMentions (f.substituting samples) false []

/-- The text of the formula with samples in place of mentions. -/
def substitute (f : Formula) (samples : Samples) : Except Report String :=
  let r := f.substitution samples
  match r.failure with
  | some report => .error report
  | none => .ok { f.assignment with body := r.tree }.text

/-- The events of a substitution. -/
def substitutingEvents (f : Formula) (samples : Samples) : List Event :=
  (f.substitution samples).state

end Formula

end DerivedStats
