import DerivedStats.Proofs.Text.Order
import DerivedStats.Statistic.Basic

/-!
# The order of statistics

Statistics are ordered by the bytes of their qualified names, and for one qualified name by their
dimensions. The order is total: comparing the other way round gives the opposite answer, and it is
transitive. But two statistics that compare as equal may differ, as a qualified name does not tell
which of its points stands between category and name (`qualifiedName_eq_iff`). This is the only way
to differ: they have the same dimensions, and one of them counts to its category what the other one
counts to its name (`Regroups`).

Main result: `order_eq_iff_regroups`.
-/

namespace DerivedStats

namespace Statistic

/-! ## Qualified names -/

/-- `t` has the parts of `s`, but what stands between two points of the qualified name belongs to
the category of `t` and to the name of `s`. -/
structure Regroups (s t : Statistic) (middle : String) : Prop where
  category : t.category = s.category ++ "." ++ middle
  name : s.name = middle ++ "." ++ t.name

/-- Regrouped statistics have the same qualified name. -/
theorem Regroups.qualifiedName_eq {s t : Statistic} {middle : String} (h : s.Regroups t middle) :
    s.qualifiedName = t.qualifiedName := by
  rw [qualifiedName, qualifiedName, h.category, h.name]
  simp only [String.append_assoc]

/-- Statistics that are regrouped differ. -/
theorem Regroups.ne {s t : Statistic} {middle : String} (h : s.Regroups t middle) : s ≠ t := by
  rintro rfl
  have hlength := congrArg String.length h.category
  simp only [String.length_append] at hlength
  have hpoint : ".".length = 1 := rfl
  omega

/-- **What a qualified name tells.** Statistics with one qualified name have the same category and
name, unless one is the other one regrouped. -/
theorem qualifiedName_eq_iff {s t : Statistic} :
    s.qualifiedName = t.qualifiedName ↔
      (s.category = t.category ∧ s.name = t.name)
        ∨ (∃ middle, s.Regroups t middle) ∨ ∃ middle, t.Regroups s middle := by
  constructor
  · -- the shorter category is where the longer one starts
    have hregroups : ∀ {s t : Statistic} {rest : List Char},
        t.category.toList = s.category.toList ++ rest →
        '.' :: s.name.toList = rest ++ '.' :: t.name.toList →
        (s.category = t.category ∧ s.name = t.name) ∨ ∃ middle, s.Regroups t middle := by
      intro s t rest hcategory hname
      cases rest with
      | nil =>
        refine .inl ⟨?_, String.toList_inj.mp (List.cons.inj hname).2⟩
        exact (String.toList_inj.mp (hcategory.trans (List.append_nil _))).symm
      | cons c middle =>
        obtain ⟨rfl, hname⟩ := List.cons.inj hname
        refine .inr ⟨String.ofList middle, ?_, ?_⟩ <;> apply String.toList_inj.mp
        · simpa using hcategory
        · simpa using hname
    intro h
    have hchars : s.category.toList ++ '.' :: s.name.toList
        = t.category.toList ++ '.' :: t.name.toList := by
      simpa [qualifiedName] using congrArg String.toList h
    rcases List.append_eq_append_iff.mp hchars with
      ⟨rest, hcategory, hname⟩ | ⟨rest, hcategory, hname⟩
    · exact (hregroups hcategory hname).imp_right .inl
    · rcases hregroups hcategory hname with ⟨hcategory, hname⟩ | hmiddle
      · exact .inl ⟨hcategory.symm, hname.symm⟩
      · exact .inr (.inr hmiddle)
  · rintro (⟨hcategory, hname⟩ | ⟨_, h⟩ | ⟨_, h⟩)
    · rw [qualifiedName, qualifiedName, hcategory, hname]
    · exact h.qualifiedName_eq
    · exact h.qualifiedName_eq.symm

/-- The bytes of category and name with a point between them. -/
def qualifiedBytes (s : Statistic) : List UInt8 :=
  Text.bytes s.category.toList ++ '.'.toUInt8 :: Text.bytes s.name.toList

/-- Qualified names compare by their bytes. -/
theorem compare_qualifiedBytes (s t : Statistic) :
    compare s.qualifiedBytes t.qualifiedBytes = compare s.qualifiedName t.qualifiedName := by
  have hbytes : ∀ s : Statistic, s.qualifiedBytes = Text.bytes s.qualifiedName.toList := by
    intro s
    rw [qualifiedName, String.toList_append, String.toList_append, Text.bytes_append,
      Text.bytes_append, List.append_assoc]
    rfl
  rw [hbytes, hbytes, Text.compare_bytes]

/-! ## The order -/

/-- The order of entries: by key, and for one key by value. -/
abbrev entryOrder : String × String → String × String → Ordering :=
  compareLex (compareOn (·.1)) (compareOn (·.2))

instance : Std.LawfulEqCmp entryOrder where
  compare_self := Std.ReflCmp.compare_self
  eq_of_compare h := by
    obtain ⟨hkey, hvalue⟩ := Ordering.then_eq_eq.mp h
    exact Prod.ext (Std.LawfulEqOrd.eq_of_compare hkey) (Std.LawfulEqOrd.eq_of_compare hvalue)

/-- Dimensions are ordered by their entries; the one with the least key counts first. -/
instance : Ord Dimensions where
  compare a b := List.compareLex entryOrder a.pairs b.pairs

theorem compare_dimensions (a b : Dimensions) :
    compare a b = List.compareLex entryOrder a.pairs b.pairs := rfl

instance : Std.TransOrd Dimensions where
  eq_swap {a b} := by
    rw [compare_dimensions, compare_dimensions]
    exact Std.OrientedCmp.eq_swap
  isLE_trans {a b c} := by
    rw [compare_dimensions, compare_dimensions, compare_dimensions]
    exact Std.TransCmp.isLE_trans

instance : Std.LawfulEqOrd Dimensions where
  compare_self {a} := by
    rw [compare_dimensions]
    exact Std.ReflCmp.compare_self
  eq_of_compare {a b} h := by
    rw [compare_dimensions] at h
    exact Dictionary.ext (Std.LawfulEqCmp.eq_of_compare h)

theorem order_eq_compareLex :
    order = compareLex (compareOn qualifiedName) (compareOn dimensions) := rfl

instance : Std.TransCmp order :=
  inferInstanceAs (Std.TransCmp (compareLex (compareOn qualifiedName) (compareOn dimensions)))

/-- Statistics of different qualified names compare like these names. -/
theorem order_of_qualifiedName_ne {s t : Statistic} (h : s.qualifiedName ≠ t.qualifiedName) :
    order s t = compare s.qualifiedName t.qualifiedName := by
  have hne : compare s.qualifiedName t.qualifiedName ≠ .eq :=
    fun heq => h (Std.LawfulEqOrd.eq_of_compare heq)
  rw [order_eq_compareLex, compareLex, compareOn]
  cases hcompare : compare s.qualifiedName t.qualifiedName with
  | eq => exact absurd hcompare hne
  | lt | gt => rfl

/-- Statistics compare as equal if they have the same qualified name and the same dimensions. -/
theorem order_eq_iff {s t : Statistic} :
    order s t = .eq ↔ s.qualifiedName = t.qualifiedName ∧ s.dimensions = t.dimensions := by
  rw [order_eq_compareLex, compareLex, Ordering.then_eq_eq, compareOn, compareOn,
    Std.LawfulEqOrd.compare_eq_iff_eq, Std.LawfulEqOrd.compare_eq_iff_eq]

/-- A statistic is determined by its category, its name and its dimensions. -/
theorem eq_of_parts {s t : Statistic} (hcategory : s.category = t.category)
    (hname : s.name = t.name) (hdimensions : s.dimensions = t.dimensions) : s = t := by
  cases s
  cases t
  simp_all

/-- Where no category holds a point, only equal statistics compare as equal. -/
theorem order_eq_iff_eq {s t : Statistic} (hs : '.' ∉ s.category.toList)
    (ht : '.' ∉ t.category.toList) : order s t = .eq ↔ s = t := by
  have hpoint : ∀ {s t : Statistic} {middle : String}, s.Regroups t middle →
      '.' ∈ t.category.toList := by
    intro s t middle h
    rw [h.category]
    simp
  rw [order_eq_iff, qualifiedName_eq_iff]
  constructor
  · rintro ⟨⟨hcategory, hname⟩ | ⟨_, h⟩ | ⟨_, h⟩, hdimensions⟩
    · exact eq_of_parts hcategory hname hdimensions
    · exact absurd (hpoint h) ht
    · exact absurd (hpoint h) hs
  · rintro rfl
    exact ⟨.inl ⟨rfl, rfl⟩, rfl⟩

/-- **When statistics compare as equal.** The order of statistics is total and goes by the bytes of
the qualified names where these differ. Two statistics compare as equal if and only if they are
equal, or have the same dimensions and are the same up to a part of the qualified name that belongs
to the category of one of them and to the name of the other. -/
theorem order_eq_iff_regroups (s t u : Statistic) :
    order t s = (order s t).swap
    ∧ (order s t ≠ .gt → order t u ≠ .gt → order s u ≠ .gt)
    ∧ (s.qualifiedName ≠ t.qualifiedName →
      order s t = compare s.qualifiedName t.qualifiedName
        ∧ order s t = compare s.qualifiedBytes t.qualifiedBytes)
    ∧ (order s t = .eq ↔ s = t ∨ s.dimensions = t.dimensions
      ∧ ((∃ middle, s.Regroups t middle) ∨ ∃ middle, t.Regroups s middle)) := by
  refine ⟨Std.OrientedCmp.eq_swap, fun hst htu => ?_, fun hne => ?_, ?_⟩
  · exact Ordering.isLE_iff_ne_gt.mp (Std.TransCmp.isLE_trans
      (Ordering.isLE_iff_ne_gt.mpr hst) (Ordering.isLE_iff_ne_gt.mpr htu))
  · rw [compare_qualifiedBytes]
    exact ⟨order_of_qualifiedName_ne hne, order_of_qualifiedName_ne hne⟩
  · rw [order_eq_iff, qualifiedName_eq_iff]
    constructor
    · rintro ⟨⟨hcategory, hname⟩ | hregroups, hdimensions⟩
      · exact .inl (eq_of_parts hcategory hname hdimensions)
      · exact .inr ⟨hdimensions, hregroups⟩
    · rintro (rfl | ⟨hdimensions, hregroups⟩)
      · exact ⟨.inl ⟨rfl, rfl⟩, rfl⟩
      · exact ⟨.inr hregroups, hdimensions⟩

/-- The part `b` of the qualified name `a.b.c` belongs to the category or to the name. -/
theorem order_eq_regrouped :
    order ⟨"a", "b.c", .empty⟩ ⟨"a.b", "c", .empty⟩ = .eq
      ∧ (⟨"a", "b.c", .empty⟩ : Statistic) ≠ ⟨"a.b", "c", .empty⟩ := by
  have hregroups : Regroups ⟨"a", "b.c", .empty⟩ ⟨"a.b", "c", .empty⟩ "b" := ⟨rfl, rfl⟩
  obtain ⟨-, -, -, hequal⟩ :=
    order_eq_iff_regroups ⟨"a", "b.c", .empty⟩ ⟨"a.b", "c", .empty⟩ ⟨"a", "b.c", .empty⟩
  exact ⟨hequal.mpr (.inr ⟨rfl, .inl ⟨"b", hregroups⟩⟩), hregroups.ne⟩

end Statistic

end DerivedStats
