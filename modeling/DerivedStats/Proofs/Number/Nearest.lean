import DerivedStats.Proofs.Number.Rounding

/-!
# The nearest double

Decimal numbers are read as the nearest double, of two equally near ones as the even one
(`Decimal.toFloat_isNearest`). Infinity takes part as if it stood for the next power of two, which
is what makes the numbers from half a unit behind the greatest double on infinite, and no others
(`Decimal.toFloat_eq_infinity_iff`).
-/

namespace DerivedStats

/-- The number that is meant. -/
def Dyadic.value (d : Dyadic) : ℚ := d.mantissa * 2 ^ d.exponent

namespace Decimal

/-- The double is the nearest one to `v` among those that are numbers without a sign, with infinity
in the place of `2 ^ 1024`; if another one is as near, then it is even. -/
structure IsNearest (v : ℚ) (x : Float) : Prop where
  numeric : x.toBits.toNat ≤ infinityBits
  nearest : ∀ y : Float, y.toBits.toNat ≤ infinityBits →
    |v - (Dyadic.ofFloat x).value| ≤ |v - (Dyadic.ofFloat y).value|
  even : ∀ y : Float, y.toBits.toNat ≤ infinityBits →
    (Dyadic.ofFloat y).value ≠ (Dyadic.ofFloat x).value →
    |v - (Dyadic.ofFloat y).value| = |v - (Dyadic.ofFloat x).value| → x.toBits.toNat % 2 = 0

/-! ## The values of doubles -/

/-- The value of the double with a given exponent and significand; a significand may be one too
large. -/
theorem ofFloat_value {x : Float} {e : Int} {q : Nat}
    (hbits : x.toBits.toNat = (e + 1074).toNat * 2 ^ 52 + q) (hmax : x.toBits.toNat ≤ infinityBits)
    (hmin : -1074 ≤ e) (hq : q ≤ 2 ^ 53) (hnormal : e = -1074 ∨ 2 ^ 52 ≤ q) :
    (Dyadic.ofFloat x).value = q * 2 ^ e := by
  have hparts : (Dyadic.ofFloat x).mantissa = q ∧ (Dyadic.ofFloat x).exponent = e ∨
      q = 2 ^ 53 ∧ (Dyadic.ofFloat x).mantissa = 2 ^ 52 ∧ (Dyadic.ofFloat x).exponent = e + 1 := by
    unfold Dyadic.ofFloat infinityBits at *
    generalize x.toBits.toNat = bits at *
    simp only
    split <;> omega
  rcases hparts with ⟨hm, he⟩ | ⟨rfl, hm, he⟩
  · rw [Dyadic.value, hm, he]
  · rw [Dyadic.value, hm, he, zpow_add₀ (by norm_num)]
    norm_num
    ring

/-- The doubles lie on a grid up to `2 ^ 1024`. -/
theorem ofFloat_grid {y : Float} (hy : y.toBits.toNat ≤ infinityBits) :
    (Dyadic.ofFloat y).mantissa < 2 ^ 53 ∧ -1074 ≤ (Dyadic.ofFloat y).exponent
      ∧ (Dyadic.ofFloat y).value ≤ 2 ^ (1024 : Int) := by
  have hparts : (Dyadic.ofFloat y).mantissa < 2 ^ 53 ∧ -1074 ≤ (Dyadic.ofFloat y).exponent
      ∧ ((Dyadic.ofFloat y).exponent ≤ 971 ∨
        (Dyadic.ofFloat y).mantissa = 2 ^ 52 ∧ (Dyadic.ofFloat y).exponent = 972) := by
    unfold Dyadic.ofFloat infinityBits at *
    generalize y.toBits.toNat = bits at *
    simp only
    split <;> omega
  obtain ⟨hm, hmin, hmax⟩ := hparts
  refine ⟨hm, hmin, ?_⟩
  have hm' : ((Dyadic.ofFloat y).mantissa : ℚ) ≤ 2 ^ 53 := by exact_mod_cast Nat.le_of_lt hm
  have hpow : (2 : ℚ) ^ (1024 : Int) = 2 ^ 53 * 2 ^ (971 : Int) := by
    rw [← zpow_natCast, ← zpow_add₀ (by norm_num)]
    rfl
  rcases hmax with hle | ⟨hmantissa, hexponent⟩
  · have hexponent : (2 : ℚ) ^ (Dyadic.ofFloat y).exponent ≤ 2 ^ (971 : Int) :=
      zpow_le_zpow_right₀ (by norm_num) hle
    rw [Dyadic.value, hpow]
    gcongr
  · have hnext : (2 : ℚ) ^ (972 : Int) = 2 * 2 ^ (971 : Int) := by
      rw [show (972 : Int) = 1 + 971 by rfl, zpow_add₀ (by norm_num), zpow_one]
    rw [Dyadic.value, hmantissa, hexponent, hpow, hnext]
    generalize (2 : ℚ) ^ (971 : Int) = p
    push_cast
    linarith

/-- Infinity takes the place of the next power of two. -/
theorem value_infinity : (Dyadic.ofFloat Number.infinity).value = 2 ^ (1024 : Int) := by
  have hbits : Number.infinity.toBits.toNat = (971 + 1074 : Int).toNat * 2 ^ 52 + 2 ^ 53 := by
    decide +kernel
  rw [ofFloat_value hbits (by decide +kernel) (by decide) (Nat.le_refl _) (.inr (by decide)),
    Nat.cast_pow, Nat.cast_ofNat, ← zpow_natCast, ← zpow_add₀ (by norm_num)]
  rfl

/-! ## Rounding a quotient -/

/-- The distance of a natural number from one that lies behind `n` by a fraction. -/
theorem distance_cases (n k : Nat) {f : ℚ} (hf : 0 ≤ f) (hf' : f < 1) :
    k ≤ n ∧ |(n : ℚ) + f - k| = (n - k) + f ∨ n + 1 ≤ k ∧ |(n : ℚ) + f - k| = (k - n) - f := by
  rcases Nat.lt_or_ge n k with h | h
  · have hk : (n : ℚ) + 1 ≤ k := by exact_mod_cast h
    exact .inr ⟨h, by rw [abs_of_nonpos (by linarith)]; ring⟩
  · have hk : (k : ℚ) ≤ n := by exact_mod_cast h
    exact .inl ⟨h, by rw [abs_of_nonneg (by linarith)]; ring⟩

/-- Less than half behind `n`, all other numbers are farther away than `n`. -/
theorem distance_below {n k : Nat} {f : ℚ} (hf : 0 ≤ f) (hhalf : f < 1 / 2) (hk : k ≠ n) :
    |(n : ℚ) + f - n| < |(n : ℚ) + f - k| := by
  rw [add_sub_cancel_left, abs_of_nonneg hf]
  rcases distance_cases n k hf (by linarith) with ⟨hle, hdistance⟩ | ⟨hle, hdistance⟩
  · have hlt : (k : ℚ) < n := by exact_mod_cast Nat.lt_of_le_of_ne hle hk
    linarith
  · have hlt : (n : ℚ) + 1 ≤ k := by exact_mod_cast hle
    linarith

/-- More than half behind `n`, all other numbers are farther away than the next one. -/
theorem distance_above {n k : Nat} {f : ℚ} (hf : f < 1) (hhalf : 1 / 2 < f) (hk : k ≠ n + 1) :
    |(n : ℚ) + f - (n + 1 : Nat)| < |(n : ℚ) + f - k| := by
  have hnext : |(n : ℚ) + f - (n + 1 : Nat)| = 1 - f := by
    push_cast
    rw [abs_of_nonpos (by linarith)]
    ring
  rw [hnext]
  rcases distance_cases n k (by linarith) hf with ⟨hle, hdistance⟩ | ⟨hle, hdistance⟩
  · have hlt : (k : ℚ) ≤ n := by exact_mod_cast hle
    linarith
  · have hlt : ((n + 1 : Nat) : ℚ) < k := by exact_mod_cast Nat.lt_of_le_of_ne hle hk.symm
    push_cast at hlt
    linarith

/-- In the middle between `n` and the next number, no number is nearer than these two. -/
theorem distance_middle {n q k : Nat} (hq : q = n ∨ q = n + 1) :
    |(n : ℚ) + 1 / 2 - q| ≤ |(n : ℚ) + 1 / 2 - k| := by
  have hmiddle : |(n : ℚ) + 1 / 2 - q| = 1 / 2 := by
    rcases hq with rfl | rfl
    · rw [add_sub_cancel_left, abs_of_nonneg (by norm_num)]
    · push_cast
      rw [abs_of_nonpos (by linarith)]
      ring
  rw [hmiddle]
  rcases distance_cases n k (f := 1 / 2) (by norm_num) (by norm_num) with
    ⟨hle, hdistance⟩ | ⟨hle, hdistance⟩
  · have hlt : (k : ℚ) ≤ n := by exact_mod_cast hle
    linarith
  · have hlt : (n : ℚ) + 1 ≤ k := by exact_mod_cast hle
    linarith

/-- A fraction is its whole part and what the remainder gives. -/
theorem cast_div_eq (num : Nat) {den : Nat} (hden : 0 < den) :
    (num : ℚ) / den = (num / den : Nat) + ((num % den : Nat) : ℚ) / den := by
  have hden' : (den : ℚ) ≠ 0 := by exact_mod_cast Nat.ne_of_gt hden
  have hcast : (num : ℚ) = den * (num / den : Nat) + (num % den : Nat) := by
    exact_mod_cast (Nat.div_add_mod num den).symm
  rw [div_eq_iff hden', add_mul, div_mul_cancel₀ _ hden', mul_comm ((num / den : Nat) : ℚ), ← hcast]

/-- The number is a nearest one to `v`, and it is even if another one is as near. -/
def IsRounded (v : ℚ) (q : Nat) : Prop :=
  ∀ k : Nat, |v - q| < |v - k| ∨ k = q ∨ q % 2 = 0 ∧ |v - q| ≤ |v - k|

/-- No number is nearer than the rounded one. -/
theorem IsRounded.le {v : ℚ} {q : Nat} (h : IsRounded v q) (k : Nat) : |v - q| ≤ |v - k| := by
  rcases h k with hlt | rfl | ⟨-, hle⟩
  · exact hlt.le
  · exact le_refl _
  · exact hle

/-- The rounded quotient is a nearest number to the fraction, and of two the even one. -/
theorem isRounded_roundQuotient (num : Nat) {den : Nat} (hden : 0 < den) :
    IsRounded ((num : ℚ) / den) (roundQuotient num den) := by
  intro k
  have hden' : (0 : ℚ) < den := by exact_mod_cast hden
  have hf : (0 : ℚ) ≤ ((num % den : Nat) : ℚ) / den := by positivity
  have hf' : ((num % den : Nat) : ℚ) / den < 1 := by
    rw [div_lt_one hden']
    exact_mod_cast Nat.mod_lt num hden
  rw [cast_div_eq num hden]
  by_cases hk : k = roundQuotient num den
  · exact .inr (.inl hk)
  unfold roundQuotient at hk ⊢
  simp only at hk ⊢
  split at hk
  · next h =>
    have h : 2 * ((num % den : Nat) : ℚ) < den := by exact_mod_cast Nat.compare_eq_lt.mp h
    refine .inl (distance_below hf ?_ hk)
    rw [div_lt_div_iff₀ hden' (by norm_num)]
    linarith
  · next h =>
    have heven : (num / den + num / den % 2) % 2 = 0 := by omega
    have hneighbour : num / den + num / den % 2 = num / den ∨
        num / den + num / den % 2 = num / den + 1 := by omega
    have h : 2 * ((num % den : Nat) : ℚ) = den := by exact_mod_cast Nat.compare_eq_eq.mp h
    have hhalf : ((num % den : Nat) : ℚ) / den = 1 / 2 := by
      rw [div_eq_div_iff hden'.ne' (by norm_num)]
      linarith
    rw [hhalf]
    exact .inr (.inr ⟨heven, distance_middle hneighbour⟩)
  · next h =>
    have h : (den : ℚ) < 2 * ((num % den : Nat) : ℚ) := by exact_mod_cast Nat.compare_eq_gt.mp h
    refine .inl (distance_above hf' ?_ hk)
    rw [div_lt_div_iff₀ (by norm_num) hden']
    linarith

/-! ## Rounding to doubles -/

/-- From the next power of two on, infinity is nearest. -/
theorem isNearest_infinity {v : ℚ} (hv : 2 ^ (1024 : Int) ≤ v) : IsNearest v Number.infinity where
  numeric := by decide +kernel
  nearest y hy := by
    obtain ⟨-, -, hle⟩ := ofFloat_grid hy
    rw [value_infinity, abs_of_nonneg (by linarith), abs_of_nonneg (by linarith)]
    linarith
  even _ _ _ _ := by decide +kernel

theorem nearest_zero (den : Nat) : nearest 0 den = nearest 0 1 := by
  rw [nearest, nearest, nearestBits, nearestBits, if_pos rfl, if_pos rfl]

/-- Below half of the least double, zero is nearest. -/
theorem isNearest_zero {v : ℚ} (hv : 0 ≤ v) (hsmall : v < 2 ^ (-1075 : Int)) :
    IsNearest v (nearest 0 1) := by
  have hzero : (Dyadic.ofFloat (nearest 0 1)).value = 0 := by
    rw [Dyadic.value, show (Dyadic.ofFloat (nearest 0 1)).mantissa = 0 by decide +kernel]
    simp
  have hfar : ∀ y : Float, y.toBits.toNat ≤ infinityBits → (Dyadic.ofFloat y).value ≠ 0 →
      |v - 0| < |v - (Dyadic.ofFloat y).value| := by
    intro y hy hne
    obtain ⟨-, hmin, -⟩ := ofFloat_grid hy
    have hmantissa : (1 : ℚ) ≤ (Dyadic.ofFloat y).mantissa := by
      have : (Dyadic.ofFloat y).mantissa ≠ 0 := fun h => hne (by simp [Dyadic.value, h])
      exact_mod_cast Nat.pos_of_ne_zero this
    have hexponent : (2 : ℚ) ^ (-1074 : Int) ≤ 2 ^ (Dyadic.ofFloat y).exponent :=
      zpow_le_zpow_right₀ (by norm_num) hmin
    have hunit : (2 : ℚ) ^ (-1074 : Int) = 2 * 2 ^ (-1075 : Int) := by
      rw [show (-1074 : Int) = 1 + -1075 by rfl, zpow_add₀ (by norm_num), zpow_one]
    have hvalue : 2 * 2 ^ (-1075 : Int) ≤ (Dyadic.ofFloat y).value := by
      rw [← hunit, Dyadic.value]
      nlinarith
    rw [sub_zero, abs_of_nonneg hv, abs_of_nonpos (by linarith)]
    linarith
  refine ⟨by decide +kernel, fun y hy => ?_, fun y hy hne heq => ?_⟩
  · rw [hzero]
    by_cases hne : (Dyadic.ofFloat y).value = 0
    · rw [hne]
    · exact (hfar y hy hne).le
  · rw [hzero] at hne heq
    exact absurd heq (hfar y hy hne).ne'

/-- A fraction is the scaled quotient times the power of two that was divided out. -/
theorem div_eq_scaled (num : Nat) {den : Nat} (hden : 0 < den) (e : Int) :
    (num : ℚ) / den = (scaleDown num den e).1 / (scaleDown num den e).2 * 2 ^ e := by
  have hden' : (den : ℚ) ≠ 0 := by exact_mod_cast Nat.ne_of_gt hden
  have hscaled : ((scaleDown num den e).2 : ℚ) ≠ 0 := by
    exact_mod_cast Nat.ne_of_gt (scaleDown_pos hden e)
  rw [div_mul_eq_mul_div, div_eq_div_iff hden' hscaled, ← scaleDown_ratio]
  ring

/-- A double is on the grid `2 ^ e`, or it is below `2 ^ 52 * 2 ^ e`. -/
theorem value_on_grid {y : Float} (hy : y.toBits.toNat ≤ infinityBits) (e : Int) :
    (∃ k : Nat, (Dyadic.ofFloat y).value = k * 2 ^ e) ∨
      -1074 < e ∧ (Dyadic.ofFloat y).value < 2 ^ 52 * 2 ^ e := by
  obtain ⟨hm, hmin, -⟩ := ofFloat_grid hy
  rcases le_or_gt e (Dyadic.ofFloat y).exponent with h | h
  · refine .inl ⟨(Dyadic.ofFloat y).mantissa * 2 ^ ((Dyadic.ofFloat y).exponent - e).toNat, ?_⟩
    have hsplit : (2 : ℚ) ^ (Dyadic.ofFloat y).exponent
        = 2 ^ ((Dyadic.ofFloat y).exponent - e).toNat * 2 ^ e := by
      rw [← zpow_natCast, ← zpow_add₀ (by norm_num), Int.toNat_of_nonneg (by omega),
        Int.sub_add_cancel]
    rw [Dyadic.value, hsplit]
    push_cast
    ring
  · refine .inr ⟨by omega, ?_⟩
    have hm' : ((Dyadic.ofFloat y).mantissa : ℚ) < 2 ^ 53 := by exact_mod_cast hm
    have hstep : (2 : ℚ) ^ (1 + (Dyadic.ofFloat y).exponent) ≤ 2 ^ e :=
      zpow_le_zpow_right₀ (by norm_num) (by omega)
    rw [zpow_add₀ (by norm_num), zpow_one] at hstep
    have hpos : (0 : ℚ) < 2 ^ (Dyadic.ofFloat y).exponent := zpow_pos (by norm_num) _
    rw [Dyadic.value]
    nlinarith

/-- A quotient is rounded to the next number at most. -/
theorem roundQuotient_le {num den k : Nat} (h : num / den < k) :
    roundQuotient num den ≤ k := by
  unfold roundQuotient
  simp only
  split <;> omega

/-- The double with a rounded number as its significand is the nearest one. -/
theorem IsRounded.isNearest {x : Float} {v : ℚ} {e : Int} {q : Nat} (h : IsRounded v q)
    (hmax : x.toBits.toNat ≤ infinityBits) (hvalue : (Dyadic.ofFloat x).value = q * 2 ^ e)
    (heven : q % 2 = 0 → x.toBits.toNat % 2 = 0) (hlow : e = -1074 ∨ 2 ^ 52 ≤ v) :
    IsNearest (v * 2 ^ e) x := by
  have hpow : (0 : ℚ) < 2 ^ e := zpow_pos (by norm_num) _
  have hdistance : ∀ k : Nat, |v * 2 ^ e - k * 2 ^ e| = |v - k| * 2 ^ e := by
    intro k
    rw [← sub_mul, abs_mul, abs_of_pos hpow]
  have hcases : ∀ y : Float, y.toBits.toNat ≤ infinityBits →
      (∃ k : Nat, (Dyadic.ofFloat y).value = k * 2 ^ e) ∨
        |v * 2 ^ e - q * 2 ^ e| < |v * 2 ^ e - (Dyadic.ofFloat y).value| := by
    intro y hy
    refine (value_on_grid hy e).imp_right fun ⟨he, hlt⟩ => ?_
    -- below the grid everything is farther away than its lower end
    have hend : 2 ^ 52 ≤ v := hlow.resolve_left (by omega)
    have hnear : |v - q| ≤ v - 2 ^ 52 := by
      have hle := h.le (2 ^ 52)
      rwa [Nat.cast_pow, Nat.cast_ofNat, abs_of_nonneg (sub_nonneg.mpr hend)] at hle
    have hscaled := mul_le_mul_of_nonneg_right hnear hpow.le
    have hscaledEnd := mul_le_mul_of_nonneg_right hend hpow.le
    rw [sub_mul] at hscaled
    rw [hdistance, abs_of_nonneg (by linarith : 0 ≤ v * 2 ^ e - (Dyadic.ofFloat y).value)]
    linarith
  refine ⟨hmax, fun y hy => ?_, fun y hy hne heq => ?_⟩
  · rw [hvalue]
    rcases hcases y hy with ⟨k, hk⟩ | hlt
    · rw [hk, hdistance, hdistance]
      exact mul_le_mul_of_nonneg_right (h.le k) hpow.le
    · exact hlt.le
  · rw [hvalue] at hne heq
    rcases hcases y hy with ⟨k, hk⟩ | hlt
    · rw [hk, hdistance, hdistance] at heq
      rcases h k with hlt | rfl | ⟨hq, -⟩
      · exact absurd (mul_right_cancel₀ hpow.ne' heq) hlt.ne'
      · exact absurd hk hne
      · exact heven hq
    · exact absurd heq hlt.ne'

/-- **A fraction is rounded to the nearest double.** -/
theorem nearest_isNearest (num : Nat) {den : Nat} (hden : 0 < den) :
    IsNearest ((num : ℚ) / den) (nearest num den) := by
  have hden' : (0 : ℚ) < den := by exact_mod_cast hden
  rcases Nat.eq_zero_or_pos num with rfl | hnum
  · rw [Nat.cast_zero, zero_div, nearest_zero]
    exact isNearest_zero (le_refl 0) (by positivity)
  obtain ⟨hmin, hhigh, hlow⟩ := unitExponent_spec hnum hden
  have hbits := nearestBits_eq hnum den
  generalize unitExponent num den = e at *
  have hnormal : e = -1074 ∨
      2 ^ 52 ≤ roundQuotient (scaleDown num den e).1 (scaleDown num den e).2 := by
    refine hlow.imp_right fun h => le_trans ?_ (le_roundQuotient _ _)
    exact (le_quotient_iff hden e _).mpr (by exact_mod_cast h)
  have hsignificand : roundQuotient (scaleDown num den e).1 (scaleDown num den e).2 ≤ 2 ^ 53 :=
    roundQuotient_le ((quotient_lt_iff hden e _).mpr (by exact_mod_cast hhigh))
  have hlow : e = -1074 ∨ 2 ^ 52 * 2 ^ e ≤ (num : ℚ) / den :=
    hlow.imp_right (le_div_iff₀ hden').mpr
  by_cases hlarge : 972 ≤ e
  · have hinfinite : nearestBits num den = infinityBits := by
      rw [hbits]
      refine Nat.min_eq_right ?_
      unfold infinityBits
      omega
    have hpower : (2 : ℚ) ^ (1024 : Int) ≤ 2 ^ 52 * 2 ^ e := by
      rw [← zpow_natCast, ← zpow_add₀ (by norm_num)]
      exact zpow_le_zpow_right₀ (by norm_num) (by push_cast; omega)
    rw [nearest_eq_infinity hinfinite]
    exact isNearest_infinity (hpower.trans (hlow.resolve_left (by omega)))
  -- the double has the rounded quotient as its significand
  have hbits : (nearest num den).toBits.toNat = (e + 1074).toNat * 2 ^ 52 +
      roundQuotient (scaleDown num den e).1 (scaleDown num den e).2 := by
    rw [toNat_toBits_nearest, hbits]
    refine Nat.min_eq_left ?_
    unfold infinityBits
    omega
  have hmax := toNat_toBits_nearest num den ▸ nearestBits_le num den
  have hvalue := ofFloat_value hbits hmax hmin hsignificand hnormal
  rw [div_eq_scaled num hden e] at hlow ⊢
  refine (isRounded_roundQuotient _ (scaleDown_pos hden e)).isNearest hmax hvalue (by omega) ?_
  exact hlow.imp_right fun h => le_of_mul_le_mul_right h (zpow_pos (by norm_num) _)

/-- **Decimal numbers are read as the nearest double.** -/
theorem toFloat_isNearest (d : Decimal) : IsNearest d.value d.toFloat := by
  have hpow : ∀ k : Int, (0 : ℚ) < 10 ^ k := fun k => zpow_pos (by norm_num) k
  have hnonneg : 0 ≤ d.value := mul_nonneg (Nat.cast_nonneg _) (hpow _).le
  unfold toFloat
  simp only
  split
  · next h =>
    refine isNearest_zero hnonneg ?_
    rcases h with h | h
    · rw [value, h, Nat.cast_zero, zero_mul]
      positivity
    · refine (d.value_lt.trans_le ?_).trans_le (ten_pow_le_two_pow (by norm_num))
      exact zpow_le_zpow_right₀ (by norm_num) h.le
  · next h =>
    rw [not_or] at h
    split
    · next hlarge =>
      refine isNearest_infinity ?_
      have hdigits : (1 : ℚ) ≤ d.digits := by exact_mod_cast Nat.pos_of_ne_zero h.1
      have hbound : (2 : ℚ) ^ (1024 : Int) ≤ 10 ^ (400 : Int) := two_pow_le_ten_pow (by norm_num)
      have hexponent : (10 : ℚ) ^ (400 : Int) ≤ 10 ^ d.exponent :=
        zpow_le_zpow_right₀ (by norm_num) (by omega)
      exact (hbound.trans hexponent).trans (le_mul_of_one_le_left (hpow _).le hdigits)
    · have hden : (0 : ℚ) < (10 ^ (-d.exponent).toNat : Nat) := by positivity
      have hvalue : d.value = ((d.digits * 10 ^ d.exponent.toNat : Nat) : ℚ)
          / (10 ^ (-d.exponent).toNat : Nat) := by
        rw [value_mul, mul_div_cancel_right₀ _ hden.ne']
      rw [hvalue]
      exact nearest_isNearest _ (Nat.pow_pos (by decide))

/-- The numbers that are read as infinity are those from half a unit behind the greatest double on. -/
theorem toFloat_eq_infinity_iff {d : Decimal} :
    d.toFloat = Number.infinity ↔ ((2 : ℚ) ^ 54 - 1) * 2 ^ (970 : Int) ≤ d.value := by
  refine ⟨fun h => ?_, toFloat_overflow⟩
  by_contra hsmall
  have hgreatest : (Dyadic.ofFloat (Float.ofBits 0x7FEFFFFFFFFFFFFF)).value
      = ((2 ^ 53 - 1 : Nat) : ℚ) * 2 ^ (971 : Int) :=
    ofFloat_value (by decide +kernel) (by decide +kernel) (by decide) (by decide) (.inr (by decide))
  have hnearest := d.toFloat_isNearest.nearest (Float.ofBits 0x7FEFFFFFFFFFFFFF) (by decide +kernel)
  have hpower : (2 : ℚ) ^ (1024 : Int) = 2 ^ 54 * 2 ^ (970 : Int) := by
    rw [← zpow_natCast, ← zpow_add₀ (by norm_num)]
    rfl
  have hnext : (2 : ℚ) ^ (971 : Int) = 2 * 2 ^ (970 : Int) := by
    rw [show (971 : Int) = 1 + 970 by rfl, zpow_add₀ (by norm_num), zpow_one]
  have hpos : (0 : ℚ) < 2 ^ (970 : Int) := zpow_pos (by norm_num) _
  rw [h, value_infinity, hgreatest, hpower, hnext] at hnearest
  generalize (2 : ℚ) ^ (970 : Int) = p at *
  norm_num at hsmall hnearest
  rw [abs_of_nonpos (by linarith only [hsmall, hpos])] at hnearest
  rcases abs_cases (d.value - 9007199254740991 * (2 * p)) with ⟨heq, -⟩ | ⟨heq, -⟩
  · linarith only [hsmall, hpos, hnearest, heq]
  · linarith only [hsmall, hpos, hnearest, heq]

end Decimal

end DerivedStats
