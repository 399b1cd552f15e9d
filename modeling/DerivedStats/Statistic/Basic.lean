import DerivedStats.Syntax.Expr
import DerivedStats.Text.Dictionary

/-!
# Statistics

What a mention stands for: a category, a name and dimensions by key. A dimension whose value is the
wildcard leaves that dimension open; it is closed by binding it to a value (`resolve`) or by
putting a marker in its place (`replaceWildcards`). Both leave all other dimensions alone.
-/

namespace DerivedStats

/-- The dimension value that stands for any value. -/
def wildcard : String := "*"

/-- Dimension values by key. -/
abbrev Dimensions := Dictionary String

/-- Values for wildcards by key. -/
abbrev Placeholders := Dictionary String

/-- One statistic: its category, its name, and its dimensions. -/
structure Statistic where
  category : String
  name : String
  dimensions : Dimensions := .empty
deriving DecidableEq, Inhabited

/-- The dimensions of a mention by key; of dimensions with one key the last counts. -/
def Mention.dimensionsByKey (m : Mention) : Dimensions :=
  .ofList (m.dimensions.map fun d => (d.key, d.value))

/-- The statistic that a mention stands for where `category` is the default one. -/
def Mention.resolve (m : Mention) (category : String) : Statistic where
  category := m.category.getD category
  name := m.name
  dimensions := m.dimensionsByKey

namespace Statistic

/-- Category and name with a point between them. -/
def qualifiedName (s : Statistic) : String := s.category ++ "." ++ s.name

/-- Some dimension is open. -/
def isWildcarded (s : Statistic) : Bool := s.dimensions.pairs.any fun p => p.2 == wildcard

/-- Same category, name and dimension keys; the values may differ. -/
def sameKeys (s t : Statistic) : Bool :=
  s.category == t.category && s.name == t.name && s.dimensions.keys == t.dimensions.keys

/-- The statistic with its open dimensions closed by the placeholders that bind them. -/
def resolve (s : Statistic) (placeholders : Placeholders) : Statistic :=
  { s with
    dimensions := s.dimensions.mapValues fun key value =>
      if value = wildcard then (placeholders.get? key).getD value else value }

/-- The statistic with a marker for each open dimension. -/
def replaceWildcards (s : Statistic) (marker : String) : Statistic :=
  { s with
    dimensions := s.dimensions.mapValues fun _ value => if value = wildcard then marker else value }

/-- Where nothing is open there is nothing to close. -/
theorem mapValues_of_closed {s : Statistic} (h : s.isWildcarded = false)
    (close : String → String → String) :
    s.dimensions.mapValues (fun key value => if value = wildcard then close key value else value)
      = s.dimensions := by
  refine Dictionary.ext ((List.map_congr_left fun p hp => ?_).trans (List.map_id _))
  have hvalue : p.2 ≠ wildcard := by simpa using List.any_eq_false.mp h p hp
  simp only [if_neg hvalue, id_eq]

/-- Placeholders change nothing in a statistic without open dimensions. -/
theorem resolve_of_closed {s : Statistic} (h : s.isWildcarded = false)
    (placeholders : Placeholders) : s.resolve placeholders = s := by
  rw [resolve, mapValues_of_closed h fun key value => (placeholders.get? key).getD value]

/-- In a statistic without open dimensions there is nothing to replace. -/
theorem replaceWildcards_of_closed {s : Statistic} (h : s.isWildcarded = false) (marker : String) :
    s.replaceWildcards marker = s := by
  rw [replaceWildcards, mapValues_of_closed h fun _ _ => marker]

/-- Two statistics have the same keys if they agree in all but the values of their dimensions. -/
theorem sameKeys_iff {s t : Statistic} :
    s.sameKeys t = true ↔
      s.category = t.category ∧ s.name = t.name ∧ s.dimensions.keys = t.dimensions.keys := by
  simp [sameKeys, and_assoc]

/-- Replacing the open dimensions keeps the keys. -/
theorem sameKeys_replaceWildcards (s : Statistic) (marker : String) :
    s.sameKeys (s.replaceWildcards marker) = true :=
  sameKeys_iff.mpr ⟨rfl, rfl, by simp [replaceWildcards]⟩

/-- The statistic as it is written; the empty category is left out, the dimensions are in the order
of their keys. -/
def text (s : Statistic) : String :=
  (if s.category.isEmpty then "" else s.category ++ ".") ++ s.name ++
    if s.dimensions.isEmpty then ""
    else
      "\x7b" ++ ",".intercalate (s.dimensions.pairs.map fun p => p.1 ++ ":\"" ++ p.2 ++ "\"")
        ++ "\x7d"

/-- The order of statistics: by qualified name, and for one qualified name by dimensions. -/
def order (s t : Statistic) : Ordering :=
  (compare s.qualifiedName t.qualifiedName).then
    (List.compareLex (fun p q => (compare p.1 q.1).then (compare p.2 q.2)) s.dimensions.pairs
      t.dimensions.pairs)

/-- Statistics in ascending order; those that compare as equal keep their places. -/
def sort (ss : List Statistic) : List Statistic := ss.mergeSort fun s t => (order s t).isLE

end Statistic

end DerivedStats
