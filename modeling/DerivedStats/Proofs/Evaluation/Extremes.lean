import DerivedStats.Evaluation.Aggregation
import DerivedStats.Proofs.Number.Order

/-!
# Least and greatest numbers

What the aggregates for the least and the greatest of several numbers answer (`IsExtreme`): zero
over no numbers, `nan` exactly if a value is `nan`, and otherwise one of the values that no value
passes. Each of the two is a fold that prefers the lesser of two keys, so the facts are proved once
for such a fold. From the answer follows that the order of the values does not matter
(`Aggregate.apply_perm`), unless the answer is a zero and both zeros are among the values.
-/

namespace DerivedStats

open Number (rank unpacked)

/-! ## A fold that prefers -/

section Fold

variable {prefers : Float → Float → Bool} {x y : Float}

/-- The extreme of two numbers is not a number exactly if one of the two is not. -/
theorem isNaN_extreme : (extreme prefers x y).isNaN = (x.isNaN || y.isNaN) := by
  unfold extreme
  split
  · next h => rw [h]; decide +kernel
  · next h =>
    have hx : x.isNaN = false := by simp_all
    have hy : y.isNaN = false := by simp_all
    split
    · rw [hx, hy]; rfl
    · rw [hx, hy]; rfl

/-- A running extreme is not a number exactly if it met one that is not. -/
theorem isNaN_foldl_extreme (xs : List Float) :
    ∀ x, (xs.foldl (extreme prefers) x).isNaN = (x :: xs).any (·.isNaN) := by
  induction xs with
  | nil => intro x; simp
  | cons y ys ih =>
    intro x
    rw [List.foldl_cons, ih, List.any_cons, isNaN_extreme, List.any_cons, List.any_cons,
      Bool.or_assoc]

variable {κ : Type} [LinearOrder κ] {key : Float → κ}

/-- Of two numbers one with the lesser key is taken. -/
theorem extreme_spec
    (hprefers : ∀ x y, x.isNaN = false → y.isNaN = false → (prefers x y = true ↔ key x < key y))
    (hx : x.isNaN = false) (hy : y.isNaN = false) :
    (extreme prefers x y = x ∨ extreme prefers x y = y)
      ∧ key (extreme prefers x y) ≤ key x ∧ key (extreme prefers x y) ≤ key y := by
  unfold extreme
  rw [hx, hy, Bool.or_self, if_neg Bool.false_ne_true]
  split
  · next h => exact ⟨.inr rfl, le_of_lt ((hprefers y x hy hx).mp h), le_refl _⟩
  · next h =>
    have hle : ¬ key y < key x := fun hlt => h ((hprefers y x hy hx).mpr hlt)
    exact ⟨.inl rfl, le_refl _, not_lt.mp hle⟩

/-- The fold ends at one of the numbers, and no number has a lesser key. -/
theorem foldl_extreme_spec
    (hprefers : ∀ x y, x.isNaN = false → y.isNaN = false → (prefers x y = true ↔ key x < key y))
    (xs : List Float) : ∀ x, (∀ v ∈ x :: xs, v.isNaN = false) →
      xs.foldl (extreme prefers) x ∈ x :: xs
        ∧ ∀ v ∈ x :: xs, key (xs.foldl (extreme prefers) x) ≤ key v := by
  induction xs with
  | nil =>
    intro x _
    refine ⟨List.mem_singleton_self x, fun v hv => ?_⟩
    rw [List.mem_singleton.mp hv]
    exact le_refl _
  | cons y ys ih =>
    intro x hnumbers
    have hx : x.isNaN = false := hnumbers x (by simp)
    have hy : y.isNaN = false := hnumbers y (by simp)
    obtain ⟨hwhich, hlex, hley⟩ := extreme_spec hprefers hx hy
    have hrest : ∀ v ∈ extreme prefers x y :: ys, v.isNaN = false := by
      intro v hv
      rcases List.mem_cons.mp hv with rfl | hv
      · rw [isNaN_extreme, hx, hy]; rfl
      · exact hnumbers v (by simp [hv])
    obtain ⟨hmem, hbound⟩ := ih (extreme prefers x y) hrest
    rw [List.foldl_cons]
    constructor
    · rcases List.mem_cons.mp hmem with h | h
      · rw [h]
        rcases hwhich with hw | hw
        · rw [hw]; simp
        · rw [hw]; simp
      · simp [h]
    · intro v hv
      have hfirst := hbound _ (List.mem_cons_self (a := extreme prefers x y) (l := ys))
      rcases List.mem_cons.mp hv with rfl | hv
      · exact le_trans hfirst hlex
      rcases List.mem_cons.mp hv with rfl | hv
      · exact le_trans hfirst hley
      · exact hbound v (List.mem_cons_of_mem _ hv)

end Fold

/-! ## The answers of the aggregates -/

/-- `m` is what is asked for where one of several numbers is to be found that no other one passes:
`le m v` says that `v` does not pass `m`. -/
structure IsExtreme (le : Float → Float → Prop) (values : List Float) (m : Float) : Prop where
  /-- Over no numbers the answer is zero. -/
  empty : values = [] → m = 0.0
  /-- A value that is not a number makes the answer not a number, and nothing else does. -/
  isNaN : m.isNaN = true ↔ ∃ v ∈ values, v.isNaN = true
  /-- The answer is one of the numbers. -/
  mem : values ≠ [] → (∀ v ∈ values, v.isNaN = false) → m ∈ values
  /-- No number passes it. -/
  bound : (∀ v ∈ values, v.isNaN = false) → ∀ v ∈ values, le m v

namespace IsExtreme

/-- The fold that prefers lesser keys answers the question if `le` is the order of the keys. -/
theorem extremeOf {κ : Type} [LinearOrder κ] {prefers : Float → Float → Bool}
    {le : Float → Float → Prop} (key : Float → κ)
    (hprefers : ∀ x y, x.isNaN = false → y.isNaN = false → (prefers x y = true ↔ key x < key y))
    (hle : ∀ x y, x.isNaN = false → y.isNaN = false → (le x y ↔ key x ≤ key y))
    (values : List Float) : IsExtreme le values (extremeOf prefers values) := by
  cases values with
  | nil =>
    refine ⟨fun _ => rfl, ?_, fun h => absurd rfl h, fun _ v hv => absurd hv (by simp)⟩
    simp only [List.not_mem_nil, false_and, exists_false, iff_false]
    show ¬ (0.0 : Float).isNaN = true
    decide +kernel
  | cons x xs =>
    have hnan := @isNaN_foldl_extreme prefers xs x
    refine ⟨(fun h => nomatch h), ?_, fun _ hnumbers => ?_, fun hnumbers v hv => ?_⟩
    · rw [DerivedStats.extremeOf, hnan, List.any_eq_true]
    · exact (foldl_extreme_spec hprefers xs x hnumbers).1
    · obtain ⟨hmem, hbound⟩ := foldl_extreme_spec hprefers xs x hnumbers
      exact (hle _ v (hnumbers _ hmem) (hnumbers v hv)).mpr (hbound v hv)

end IsExtreme

namespace Aggregate

/-- The minimum is the least of the values. -/
theorem isExtreme_minimum (values : List Float) :
    IsExtreme (fun x y => x ≤ y) values (minimum.apply values) := by
  refine IsExtreme.extremeOf (fun x => rank (unpacked x)) ?_ ?_ values
  · intro x y hx hy
    rw [decide_eq_true_eq]
    exact Number.lt_iff_rank hx hy
  · intro x y hx hy
    exact Number.le_iff_rank hx hy

/-- The maximum is the greatest of the values. -/
theorem isExtreme_maximum (values : List Float) :
    IsExtreme (fun x y => y ≤ x) values (maximum.apply values) := by
  refine IsExtreme.extremeOf (fun x => OrderDual.toDual (rank (unpacked x))) ?_ ?_ values
  · intro x y hx hy
    rw [decide_eq_true_eq, OrderDual.toDual_lt_toDual]
    exact Number.lt_iff_rank hy hx
  · intro x y hx hy
    rw [OrderDual.toDual_le_toDual]
    exact Number.le_iff_rank hy hx

/-- Answers over the same values in two orders are the same, unless the answer is a zero and zeros
of both signs are among the values. -/
theorem eq_of_isExtreme {le : Float → Float → Prop} {values values' : List Float} {m m' : Float}
    (hsame : ∀ x y, x.isNaN = false → y.isNaN = false → le x y → le y x →
      x = y ∨ (x = 0.0 ∨ x = -0.0) ∧ (y = 0.0 ∨ y = -0.0))
    (h : IsExtreme le values m) (h' : IsExtreme le values' m') (hperm : values.Perm values')
    (hzeros : m = 0.0 ∨ m = -0.0 → ¬ (0.0 ∈ values ∧ -0.0 ∈ values)) : m = m' := by
  by_cases hnan : ∃ v ∈ values, v.isNaN = true
  · have hnan' : ∃ v ∈ values', v.isNaN = true := by
      obtain ⟨v, hv, hvnan⟩ := hnan
      exact ⟨v, hperm.mem_iff.mp hv, hvnan⟩
    rw [Number.eq_nan (h.isNaN.mpr hnan), Number.eq_nan (h'.isNaN.mpr hnan')]
  by_cases hempty : values = []
  · have hempty' : values' = [] := by
      subst hempty
      exact hperm.symm.eq_nil
    rw [h.empty hempty, h'.empty hempty']
  have hnumbers : ∀ v ∈ values, v.isNaN = false := by
    intro v hv
    by_contra hvnan
    exact hnan ⟨v, hv, by simpa using hvnan⟩
  have hnumbers' : ∀ v ∈ values', v.isNaN = false := fun v hv => hnumbers v (hperm.mem_iff.mpr hv)
  have hmem : m ∈ values := h.mem hempty hnumbers
  have hmem' : m' ∈ values' := h'.mem (fun h => hempty (h ▸ hperm).eq_nil) hnumbers'
  have hle : le m m' := h.bound hnumbers m' (hperm.mem_iff.mpr hmem')
  have hle' : le m' m := h'.bound hnumbers' m (hperm.mem_iff.mp hmem)
  rcases hsame m m' (hnumbers m hmem) (hnumbers' m' hmem') hle hle' with heq | ⟨hz, hz'⟩
  · exact heq
  · -- two zeros of one sign are the same, and zeros of both signs are excluded
    have hapart := hzeros hz
    have hmem' : m' ∈ values := hperm.mem_iff.mpr hmem'
    rcases hz with rfl | rfl <;> rcases hz' with rfl | rfl
    · rfl
    · exact absurd ⟨hmem, hmem'⟩ hapart
    · exact absurd ⟨hmem', hmem⟩ hapart
    · rfl

/-- The answer over the values is a zero, and zeros of both signs are among the values. Which of the
two the answer is depends on the one that is met first. -/
def ZerosMeet (a : Aggregate) (values : List Float) : Prop :=
  (a.apply values = 0.0 ∨ a.apply values = -0.0) ∧ 0.0 ∈ values ∧ -0.0 ∈ values

/-- **The least and the greatest of several numbers do not depend on their order**, unless zeros
meet. -/
theorem apply_perm {a : Aggregate} (ha : a = minimum ∨ a = maximum) {values values' : List Float}
    (hperm : values.Perm values') (hzeros : ¬ a.ZerosMeet values) :
    a.apply values = a.apply values' := by
  have hapart := not_and.mp hzeros
  rcases ha with rfl | rfl
  · exact eq_of_isExtreme (fun x y hx hy => Number.eq_or_zeros hx hy) (isExtreme_minimum values)
      (isExtreme_minimum values') hperm hapart
  · exact eq_of_isExtreme (fun x y hx hy hxy hyx => Number.eq_or_zeros hx hy hyx hxy)
      (isExtreme_maximum values) (isExtreme_maximum values') hperm hapart

end Aggregate

end DerivedStats
