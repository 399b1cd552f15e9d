import DerivedStats.Evaluation.Evaluate
import DerivedStats.Journal

/-!
# Sample lists

Several samples for each statistic, turned into single values. For a derived statistic without open
dimensions every sample of an open statistic becomes a statistic of its own, told apart by a marker
in place of the wildcards; a closed statistic keeps its last sample. For an open derived statistic
there is room for one sample each, and its dimensions are the placeholders.
-/

namespace DerivedStats

/-- The marker of the sample with the given index. -/
def sampleMarker (index : Nat) : String := "sample_" ++ toString index

namespace Samples

/-- The single values of one sample list, each with its statistic. -/
def marked (s : Statistic) (list : List Float) : List (Statistic × Float) :=
  list.mapIdx fun index value => (s.replaceWildcards (sampleMarker index), value)

/-- All samples as single values. -/
def spread (samples : Samples) : Values :=
  .ofList (samples.entries.flatMap fun entry => marked entry.1 entry.2)

/-- The one sample of each list; a list of another length is a misuse. -/
def sole : List (Statistic × List Float) → Except Misuse (List (Statistic × Float))
  | [] => .ok []
  | (s, [value]) :: rest => do return (s, value) :: (← sole rest)
  | (s, list) :: _ => .error (.sampleCount s list.length)

/-- The values and placeholders to evaluate a derived statistic with. -/
def expand (samples : Samples) (derived : Statistic) : Except Misuse (Values × Placeholders) :=
  if derived.isWildcarded then do
    let entries ← sole samples.entries
    return (.ofList entries, derived.dimensions)
  else .ok (samples.spread, .empty)

/-- The events of an expansion. -/
def expandingEvents (samples : Samples) (derived : Statistic) : List Event :=
  if derived.isWildcarded then [] else [.expanded samples.size samples.spread.size]

end Samples

end DerivedStats
