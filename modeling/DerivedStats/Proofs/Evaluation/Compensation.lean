import DerivedStats.Evaluation.Aggregation
import DerivedStats.Proofs.Number.Arithmetic

/-!
# Compensated sums that are not numbers

While the sum with compensation is finite its total is a number; once it is not finite it stays so,
and then the total without a look at the plain sum is not a number
(`CompensatedSum.isNaN_corrected`). An infinite value, or one that is not a number, leads there. The
plain sum is other than a number only through such a value (`exists_of_isNaN_foldl`), and where it
is infinite it is the answer. So the compensated sum and the plain one are numbers together, but
where the compensated one alone gets too large, which it may a little earlier than the plain one.

Main result: `Aggregate.isNaN_iff_plainSum`.
-/

namespace DerivedStats

open Number

/-- The sum of values as plain addition gives it, from left to right. -/
def plainSum (values : List Float) : Float := values.foldl (· + ·) 0.0

/-- A plain sum other than a number has a summand that is infinite or not a number. -/
theorem exists_of_isNaN_foldl {values : List Float} {x : Float} (hx : x.isNaN = false)
    (h : (values.foldl (· + ·) x).isNaN = true) : ∃ v ∈ values, v.isFinite = false := by
  induction values generalizing x with
  | nil => exact absurd (hx.symm.trans h) Bool.false_ne_true
  | cons v values ih =>
    cases hv : v.isFinite with
    | false => exact ⟨v, by simp, hv⟩
    | true =>
      have hsum : (x + v).isNaN = false := by
        refine Bool.eq_false_iff.mpr fun hnan => ?_
        rcases isNaN_add.mp hnan with hx' | hv' | ⟨-, hinf, -⟩
        · exact Bool.false_ne_true (hx.symm.trans hx')
        · exact Bool.false_ne_true ((isNaN_eq_false hv).symm.trans hv')
        · exact isFinite_of_isInf hinf hv
      obtain ⟨w, hw, hfinite⟩ := ih hsum h
      exact ⟨w, by simp [hw], hfinite⟩

namespace CompensatedSum

variable {s : CompensatedSum} {v : Float}

/-- The plain sum adds the values from the left, whatever the compensation does. -/
theorem plain_foldl (values : List Float) (s : CompensatedSum) :
    (values.foldl add s).plain = values.foldl (· + ·) s.plain := by
  induction values generalizing s with
  | nil => rfl
  | cons v values ih => exact ih (s.add v)

/-- After an addition, the sum without the compensation is a number if the sum is finite and only
then, whatever it was before. -/
theorem isNaN_corrected_add (s : CompensatedSum) (v : Float) :
    ((s.add v).sum - (s.add v).compensation).isNaN = true ↔ (s.add v).sum.isFinite = false := by
  unfold add
  simp only
  set corrected := v - s.compensation
  set sum := s.sum + corrected with hsum
  constructor
  · intro hnan
    by_contra hfinite
    have hfinite : sum.isFinite = true := Bool.eq_true_of_not_eq_false hfinite
    obtain ⟨hbefore, hcorrected⟩ := isFinite_of_add (hsum ▸ hfinite)
    have hgain : (sum - s.sum).isNaN = false :=
      isNaN_sub_eq_false (isNaN_eq_false hfinite) (isNaN_eq_false hbefore) (.inl hfinite)
    have hloss : (sum - s.sum - corrected).isNaN = false :=
      isNaN_sub_eq_false hgain (isNaN_eq_false hcorrected) (.inr hcorrected)
    have htotal := isNaN_sub_eq_false (isNaN_eq_false hfinite) hloss (.inl hfinite)
    exact Bool.false_ne_true (htotal.symm.trans hnan)
  · intro hfinite
    rcases isFinite_eq_false_iff.mp hfinite with hnan | hinf
    · exact isNaN_sub.mpr (.inl hnan)
    · -- an infinite sum takes the compensation along: that is the sum itself, or not a number
      cases hloss : (sum - s.sum - corrected).isNaN with
      | true => exact isNaN_sub.mpr (.inr (.inl hloss))
      | false =>
        have hgain : (sum - s.sum).isNaN = false :=
          Bool.eq_false_iff.mpr fun hnan =>
            Bool.false_ne_true (hloss.symm.trans (isNaN_sub.mpr (.inl hnan)))
        have hgain' := sub_eq_left hinf hgain
        rw [hgain'] at hloss ⊢
        rw [sub_eq_left hinf hloss]
        exact isNaN_sub.mpr (.inr (.inr ⟨hinf, rfl⟩))

/-- The corrected sum is not a number exactly if the sum is not finite. -/
theorem isNaN_corrected (values : List Float) :
    ((ofList values).sum - (ofList values).compensation).isNaN = true
      ↔ (ofList values).sum.isFinite = false := by
  cases values using List.reverseRecOn with
  | nil => exact ⟨by decide +kernel, by decide +kernel⟩
  | append_singleton values v =>
    rw [ofList, List.foldl_append]
    exact isNaN_corrected_add _ v

/-- A sum that is finite was so before, and was given finite values only. -/
theorem isFinite_of_foldl {values : List Float}
    (h : (values.foldl add s).sum.isFinite = true) :
    s.sum.isFinite = true ∧ ∀ v ∈ values, v.isFinite = true := by
  induction values generalizing s with
  | nil => exact ⟨h, by simp⟩
  | cons v values ih =>
    obtain ⟨hsum, hvalues⟩ := ih (s := s.add v) h
    obtain ⟨hbefore, hcorrected⟩ := isFinite_of_add hsum
    exact ⟨hbefore, List.forall_mem_cons.mpr ⟨isFinite_of_sub hcorrected, hvalues⟩⟩

/-- The total of a sum is a number as long as the sum is finite, or if the plain sum is infinite. -/
theorem isNaN_total (values : List Float) :
    (ofList values).total.isNaN = true
      ↔ (ofList values).sum.isFinite = false ∧ ¬ (plainSum values).isInf = true := by
  have hplain : (ofList values).plain = plainSum values := plain_foldl values {}
  rw [← isNaN_corrected values, total, hplain]
  split
  · next h =>
    rw [Bool.and_eq_true] at h
    simp only [h.2, not_true_eq_false, and_false, iff_false]
    rw [isNaN_of_isInf h.2]
    exact Bool.false_ne_true
  · next h =>
    rw [Bool.and_eq_true, not_and] at h
    exact ⟨fun hnan => ⟨hnan, h hnan⟩, And.left⟩

/-- The compensated sum of the values gets too large for a double, or is not a number, where the
plain sum is finite. -/
def OverflowsAlone (values : List Float) : Prop :=
  (plainSum values).isFinite = true ∧ (ofList values).sum.isFinite = false

/-- The total and the plain sum agree on being no number unless the sum overflows alone. -/
theorem isNaN_total_iff (values : List Float) :
    ((ofList values).total.isNaN = true ↔ (plainSum values).isNaN = true)
      ↔ ¬ OverflowsAlone values := by
  rw [isNaN_total]
  have hlost : (plainSum values).isNaN = true → (ofList values).sum.isFinite = false := by
    intro hnan
    obtain ⟨v, hv, hfinite⟩ := exists_of_isNaN_foldl (by decide +kernel) hnan
    refine Bool.eq_false_iff.mpr fun hsum => ?_
    exact Bool.false_ne_true (hfinite.symm.trans ((isFinite_of_foldl hsum).2 v hv))
  constructor
  · rintro htotal ⟨hplain, hsum⟩
    have hnan := htotal.mp ⟨hsum, fun hinf => isFinite_of_isInf hinf hplain⟩
    exact Bool.false_ne_true ((isNaN_eq_false hplain).symm.trans hnan)
  · intro halone
    constructor
    · rintro ⟨hsum, hinf⟩
      have hfinite := Bool.eq_false_iff.mpr fun hplain => halone ⟨hplain, hsum⟩
      exact (isFinite_eq_false_iff.mp hfinite).resolve_right hinf
    · intro hnan
      refine ⟨hlost hnan, fun hinf => ?_⟩
      exact Bool.false_ne_true ((isNaN_of_isInf hinf).symm.trans hnan)

end CompensatedSum

namespace Aggregate

/-- **The sum of values is a number if and only if their plain sum is one**, but where the
compensated sum overflows alone; and so is their average, the values being counted in a machine
word. -/
theorem isNaN_iff_plainSum (values : List Float) :
    (((sum.apply values).isNaN = true ↔ (plainSum values).isNaN = true)
        ↔ ¬ CompensatedSum.OverflowsAlone values)
      ∧ (values ≠ [] → values.length < 2 ^ 64 →
        (((average.apply values).isNaN = true ↔ (plainSum values).isNaN = true)
          ↔ ¬ CompensatedSum.OverflowsAlone values)) := by
  refine ⟨CompensatedSum.isNaN_total_iff values, fun hne hlength => ?_⟩
  have haverage : average.apply values
      = (CompensatedSum.ofList values).total / Float.ofNat values.length := by
    rw [apply, if_neg (by simpa using hne)]
  rw [haverage, isNaN_div_ofNat (List.length_pos_iff.mpr hne) hlength]
  exact CompensatedSum.isNaN_total_iff values

/-- What each of the small values adds to the greatest double is less than half a unit in its last
place, so plain addition rounds it off, twice. Compensation adds up what is lost, and goes beyond.
-/
theorem isNaN_iff_plainSum_greatest :
    let values := [1.7976931348623157e308, 7e291, 7e291]
    plainSum values = 1.7976931348623157e308 ∧ (sum.apply values).isNaN = true
      ∧ (average.apply values).isNaN = true ∧ CompensatedSum.OverflowsAlone values := by
  intro values
  have hplain : plainSum values = 1.7976931348623157e308 := by decide +kernel
  have halone : CompensatedSum.OverflowsAlone values := ⟨by decide +kernel, by decide +kernel⟩
  have hnumber : ¬ (plainSum values).isNaN = true := by decide +kernel
  obtain ⟨hsum, haverage⟩ := isNaN_iff_plainSum values
  have haverage := haverage (by decide) (by decide)
  refine ⟨hplain, ?_, ?_, halone⟩
  · by_contra h
    exact hsum.mp (iff_of_false h hnumber) halone
  · by_contra h
    exact haverage.mp (iff_of_false h hnumber) halone

end Aggregate

end DerivedStats
