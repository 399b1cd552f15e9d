import DerivedStats.Journal
import DerivedStats.Syntax.Site

/-!
# Dependencies

The statistic that a definition defines, and the statistics that it reads. Each statistic is listed
once, in the order in which the text first mentions it; a definition may read the statistic that it
defines.
-/

namespace DerivedStats

/-- The elements of a list without repetitions, each at its first place. -/
def firstOccurrences {α : Type} [DecidableEq α] : List α → List α
  | [] => []
  | a :: as => a :: (firstOccurrences as).filter (· ≠ a)

/-- Keeping the first occurrences loses no element. -/
theorem mem_firstOccurrences {α : Type} [DecidableEq α] {a : α} {as : List α} :
    a ∈ firstOccurrences as ↔ a ∈ as := by
  induction as with
  | nil => simp [firstOccurrences]
  | cons b bs ih =>
    rw [firstOccurrences, List.mem_cons, List.mem_cons, List.mem_filter, ih]
    by_cases h : a = b <;> simp [h]

/-- Among the first occurrences no element stands twice. -/
theorem nodup_firstOccurrences {α : Type} [DecidableEq α] (as : List α) :
    (firstOccurrences as).Nodup := by
  induction as with
  | nil => simp [firstOccurrences]
  | cons a as ih =>
    rw [firstOccurrences, List.nodup_cons]
    exact ⟨by simp, ih.filter _⟩

/-- What a definition defines and what it reads. -/
structure Dependencies where
  derived : Statistic
  dependents : List Statistic
deriving DecidableEq, Inhabited

namespace Dependencies

/-- The dependencies of a definition whose mentions take the given category. -/
def ofAssignment (a : Assignment) (category : String) : Dependencies where
  derived := a.target.resolve category
  dependents := firstOccurrences ((a.body.sites false).map fun s => s.mention.resolve category)

/-- The definition reads the statistic. -/
def dependsOn (d : Dependencies) (s : Statistic) : Bool := d.dependents.contains s

/-- The event of having found the dependencies. -/
def event (d : Dependencies) : Event := .dependencies d.derived d.dependents.length

end Dependencies

end DerivedStats
