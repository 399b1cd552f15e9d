import DerivedStats.Diagnostic.Report
import DerivedStats.Statistic.Basic
import DerivedStats.Text.Blank

/-!
# Statistics under construction

A draft collects the parts of a statistic one by one, each part replacing an earlier one of its
kind. Only the name is required.
-/

namespace DerivedStats

/-- The parts of a statistic given so far. -/
structure Draft where
  category : Option String := none
  name : Option String := none
  dimensions : Dimensions := .empty

namespace Draft

/-- The draft with the category set. -/
def withCategory (d : Draft) (category : String) : Draft := { d with category := some category }

/-- The draft with the name set. -/
def withName (d : Draft) (name : String) : Draft := { d with name := some name }

/-- The draft with one more dimension. -/
def withDimension (d : Draft) (key value : String) : Draft :=
  { d with dimensions := d.dimensions.insert key value }

/-- The draft with all its dimensions replaced. -/
def withDimensions (d : Draft) (dimensions : Dimensions) : Draft :=
  { d with dimensions := dimensions }

/-- The finished statistic; a name that is missing or blank is refused. -/
def build (d : Draft) : Except Report Statistic :=
  match d.name with
  | some name =>
    if Text.isBlankText name then missing
    else .ok { category := d.category.getD "", name := name, dimensions := d.dimensions }
  | none => missing
where
  missing := .error (.argument .missingName "Statistic name is required")

end Draft

end DerivedStats
