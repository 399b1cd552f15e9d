import DerivedStats.Proofs.Number.Bits

/-!
# Rounding to doubles

What `Decimal.nearest` and `Decimal.toFloat` do to a fraction. The exponent of the unit in the last
place is the one that leaves a significand of 53 bits, or the least one (`unitExponent_spec`); all
else follows from that: a double is never negative and never other than a number
(`toFloat_numeric`), a fraction that is a double is read as that double (`nearestBits_exact`,
`exact_toFloat`), and one beyond the greatest double by half a unit is infinite (`toFloat_overflow`).
-/

namespace DerivedStats.Decimal

/-! ## Scaling -/

theorem scaleDown_eq (num den : Nat) (e : Int) :
    scaleDown num den e = (num * 2 ^ (-e).toNat, den * 2 ^ e.toNat) := by
  rw [scaleDown, Nat.shiftLeft_eq, Nat.shiftLeft_eq]

/-- Scaling divides the fraction by a power of two. -/
theorem scaleDown_ratio (num den : Nat) (e : Int) :
    ((scaleDown num den e).1 : ℚ) * (2 ^ e * den) = num * (scaleDown num den e).2 := by
  rcases Int.eq_nat_or_neg e with ⟨k, rfl | rfl⟩
  · have hzero : (-(k : Int)).toNat = 0 := by omega
    simp only [scaleDown_eq, hzero, Int.toNat_natCast, pow_zero, mul_one, zpow_natCast]
    push_cast
    ring
  · have hzero : (-(k : Int)).toNat = 0 := by omega
    simp only [scaleDown_eq, hzero, Int.neg_neg, Int.toNat_natCast, pow_zero, mul_one, zpow_neg,
      zpow_natCast]
    push_cast
    field_simp

/-- Scaling keeps the denominator positive. -/
theorem scaleDown_pos {num den : Nat} (hden : 0 < den) (e : Int) : 0 < (scaleDown num den e).2 := by
  rw [scaleDown_eq]
  exact Nat.mul_pos hden (Nat.two_pow_pos _)

/-- The scaled quotient is less than a number if the fraction is less than the scaled number. -/
theorem quotient_lt_iff {num den : Nat} (hden : 0 < den) (e : Int) (k : Nat) :
    (scaleDown num den e).1 / (scaleDown num den e).2 < k ↔ (num : ℚ) < k * 2 ^ e * den := by
  have hd : (0 : ℚ) < (scaleDown num den e).2 := by exact_mod_cast scaleDown_pos hden e
  have hden' : (0 : ℚ) < den := by exact_mod_cast hden
  have hscale : (0 : ℚ) < 2 ^ e * den := by positivity
  have hratio := scaleDown_ratio num den e
  rw [Nat.div_lt_iff_lt_mul (scaleDown_pos hden e), ← @Nat.cast_lt ℚ, Nat.cast_mul]
  rw [← mul_lt_mul_iff_of_pos_right hscale, hratio]
  rw [show (k : ℚ) * (scaleDown num den e).2 * (2 ^ e * den) =
    k * 2 ^ e * den * (scaleDown num den e).2 by ring, mul_lt_mul_iff_of_pos_right hd]

/-- The scaled quotient is at least a number if the fraction is at least the scaled number. -/
theorem le_quotient_iff {num den : Nat} (hden : 0 < den) (e : Int) (k : Nat) :
    k ≤ (scaleDown num den e).1 / (scaleDown num den e).2 ↔ (k : ℚ) * 2 ^ e * den ≤ num := by
  rw [← Nat.not_lt, quotient_lt_iff hden, not_lt]

/-- A number lies between the power of two of its logarithm and the next one. -/
theorem log2_bounds {n : Nat} (hn : 0 < n) :
    (2 : ℚ) ^ (n.log2 : Int) ≤ n ∧ (n : ℚ) < 2 ^ ((n.log2 : Int) + 1) := by
  have hlow := Nat.log2_self_le (Nat.ne_of_gt hn)
  have hhigh := Nat.lt_log2_self (n := n)
  constructor
  · exact_mod_cast hlow
  · exact_mod_cast hhigh

/-! ## The unit in the last place -/

/-- From the lengths of its two parts, the quotient has 53 or 54 bits. -/
theorem quotient_bounds {num den : Nat} (hnum : 0 < num) (hden : 0 < den) {e : Int}
    (he : e = (num.log2 : Int) - den.log2 - 53) :
    2 ^ 52 * 2 ^ e * den ≤ (num : ℚ) ∧ (num : ℚ) < 2 ^ 54 * 2 ^ e * den := by
  obtain ⟨hnum₁, hnum₂⟩ := log2_bounds hnum
  obtain ⟨hden₁, hden₂⟩ := log2_bounds hden
  have hpos : (0 : ℚ) < 2 ^ e := zpow_pos (by norm_num) _
  have hshift : ∀ (k : Nat) (a b : Int), k + e + a = b → (2 : ℚ) ^ k * 2 ^ e * 2 ^ a = 2 ^ b := by
    intro k a b hab
    rw [← zpow_natCast, ← zpow_add₀ (by norm_num), ← zpow_add₀ (by norm_num), hab]
  constructor
  · have hpow := hshift 52 (den.log2 + 1) num.log2 (by rw [he]; push_cast; ring)
    have := mul_lt_mul_of_pos_left hden₂ (show (0 : ℚ) < 2 ^ 52 * 2 ^ e by positivity)
    linarith
  · have hpow := hshift 54 den.log2 (num.log2 + 1) (by rw [he]; push_cast; ring)
    calc (num : ℚ) < 2 ^ 54 * 2 ^ e * 2 ^ (den.log2 : Int) := by rw [hpow]; exact hnum₂
      _ ≤ 2 ^ 54 * 2 ^ e * den := by gcongr

/-- The significand has at most 53 bits, and 53 of them unless the exponent is the least one. -/
theorem unitExponent_spec {num den : Nat} (hnum : 0 < num) (hden : 0 < den) :
    -1074 ≤ unitExponent num den
      ∧ (num : ℚ) < 2 ^ 53 * 2 ^ unitExponent num den * den
      ∧ (unitExponent num den = -1074 ∨ 2 ^ 52 * 2 ^ unitExponent num den * den ≤ (num : ℚ)) := by
  have hden' : (0 : ℚ) < den := by exact_mod_cast hden
  set free : Int := (num.log2 : Int) - den.log2 - 53 with hfree
  obtain ⟨hlow, hhigh⟩ := quotient_bounds hnum hden hfree
  set low : Int := max (-1074) free with hlowdef
  have hunit : unitExponent num den =
      if (scaleDown num den low).1 / (scaleDown num den low).2 < 2 ^ 53 then low else low + 1 := rfl
  rw [hunit]
  split
  · next h =>
    have h := (quotient_lt_iff hden low (2 ^ 53)).mp h
    push_cast at h
    refine ⟨le_max_left _ _, h, ?_⟩
    rcases le_total free (-1074) with hle | hle
    · exact .inl (max_eq_left hle)
    · rw [show low = free from max_eq_right hle]
      exact .inr hlow
  · next h =>
    -- one bit too many, so the unit is twice as large
    have h := (le_quotient_iff hden low (2 ^ 53)).mp (Nat.not_lt.mp h)
    push_cast at h
    have htwo : (2 : ℚ) ^ (low + 1) = 2 * 2 ^ low := by
      rw [zpow_add₀ (by norm_num), zpow_one, mul_comm]
    have hle : (2 : ℚ) ^ free ≤ 2 ^ low := zpow_le_zpow_right₀ (by norm_num) (le_max_right _ _)
    have hless : (num : ℚ) < 2 ^ 54 * 2 ^ low * den := hhigh.trans_le (by gcongr)
    have := le_max_left (-1074) free
    refine ⟨by omega, ?_, .inr ?_⟩ <;> rw [htwo] <;> linarith

/-- A fraction with a significand of 53 bits, or with the least exponent, has this exponent. -/
theorem unitExponent_eq {num den m : Nat} {e : Int} (hnum : 0 < num) (hden : 0 < den)
    (hlt : m < 2 ^ 53) (hmin : -1074 ≤ e) (hnormal : e = -1074 ∨ 2 ^ 52 ≤ m)
    (hvalue : (num : ℚ) = m * 2 ^ e * den) : unitExponent num den = e := by
  have hden' : (0 : ℚ) < den := by exact_mod_cast hden
  have hlt' : (m : ℚ) < 2 ^ 53 := by exact_mod_cast hlt
  have hpow : ∀ k : Int, (0 : ℚ) < 2 ^ k := fun k => zpow_pos (by norm_num) k
  have hstep : ∀ a b : Int, a < b → (2 : ℚ) * 2 ^ a ≤ 2 ^ b := by
    intro a b hab
    have : (2 : ℚ) ^ (a + 1) ≤ 2 ^ b := zpow_le_zpow_right₀ (by norm_num) (by omega)
    rwa [zpow_add₀ (by norm_num), zpow_one, mul_comm] at this
  obtain ⟨hunit₁, hunit₂, hunit₃⟩ := unitExponent_spec hnum hden
  generalize unitExponent num den = u at *
  rw [hvalue] at hunit₂ hunit₃
  rcases lt_trichotomy u e with hue | hue | hue
  · -- the significand would have too many bits
    exfalso
    have hle : (2 : ℚ) ^ 52 ≤ m := by
      rcases hnormal with h | h
      · omega
      · exact_mod_cast h
    have h₁ := hstep u e hue
    have h₂ := lt_of_mul_lt_mul_right hunit₂ hden'.le
    nlinarith [hpow u, hpow e]
  · exact hue
  · -- the significand would have too few bits
    exfalso
    have h₁ := hstep e u hue
    have h₂ : (2 : ℚ) ^ 52 * 2 ^ u * den ≤ m * 2 ^ e * den := hunit₃.resolve_left (by omega)
    have h₃ := le_of_mul_le_mul_right h₂ hden'
    nlinarith [hpow u, hpow e]

/-- Rounding never goes below the quotient. -/
theorem le_roundQuotient (num den : Nat) : num / den ≤ roundQuotient num den := by
  unfold roundQuotient
  simp only
  split <;> omega

/-- A whole quotient is not rounded. -/
theorem roundQuotient_mul {d : Nat} (hd : 0 < d) (n : Nat) : roundQuotient (n * d) d = n := by
  unfold roundQuotient
  simp only [Nat.mul_mod_left, Nat.mul_zero, Nat.mul_div_cancel n hd]
  rw [Nat.compare_eq_lt.mpr hd]

/-- A quotient with half a unit or more behind it is rounded up if it is odd. -/
theorem succ_le_roundQuotient {num den : Nat} (hodd : num / den % 2 = 1)
    (hhalf : den ≤ 2 * (num % den)) : num / den + 1 ≤ roundQuotient num den := by
  unfold roundQuotient
  simp only
  split
  · next h => exact absurd (Nat.compare_eq_lt.mp h) (Nat.not_lt.mpr hhalf)
  · omega
  · omega

/-! ## The nearest double -/

theorem nearestBits_eq {num : Nat} (hnum : 0 < num) (den : Nat) :
    nearestBits num den = min ((unitExponent num den + 1074).toNat * 2 ^ 52 +
      roundQuotient (scaleDown num den (unitExponent num den)).1
        (scaleDown num den (unitExponent num den)).2) infinityBits := by
  unfold nearestBits
  rw [if_neg (Nat.ne_of_gt hnum)]
  rfl

/-- Rounding never goes beyond infinity. -/
theorem nearestBits_le (num den : Nat) : nearestBits num den ≤ infinityBits := by
  unfold nearestBits
  split
  · exact Nat.zero_le _
  · exact Nat.min_le_right _ _

/-- A fraction that is a double is rounded to the bits of this double. -/
theorem nearestBits_exact {num den m : Nat} {e : Int} (hden : 0 < den) (hm : 0 < m)
    (hlt : m < 2 ^ 53) (hmin : -1074 ≤ e) (hnormal : e = -1074 ∨ 2 ^ 52 ≤ m)
    (hvalue : (num : ℚ) = m * 2 ^ e * den) :
    nearestBits num den = min ((e + 1074).toNat * 2 ^ 52 + m) infinityBits := by
  have hscale : (0 : ℚ) < 2 ^ e * den :=
    mul_pos (zpow_pos (by norm_num) _) (by exact_mod_cast hden)
  have hnum : 0 < num := by
    have : (0 : ℚ) < num := by
      rw [hvalue, mul_assoc]
      exact mul_pos (by exact_mod_cast hm) hscale
    exact_mod_cast this
  have hquotient : (scaleDown num den e).1 = m * (scaleDown num den e).2 := by
    have hratio := scaleDown_ratio num den e
    rw [hvalue] at hratio
    have : ((scaleDown num den e).1 : ℚ) = m * (scaleDown num den e).2 := by
      refine mul_right_cancel₀ hscale.ne' ?_
      rw [hratio]
      ring
    exact_mod_cast this
  rw [nearestBits_eq hnum, unitExponent_eq hnum hden hlt hmin hnormal hvalue, hquotient,
    roundQuotient_mul (scaleDown_pos hden e)]

/-- A quotient that is half a unit or less below a power of two is rounded up to it. -/
theorem le_roundQuotient_of_half {num den : Nat} (hden : 0 < den)
    (h : (2 ^ 54 - 1) * den ≤ 2 * num) : 2 ^ 53 ≤ roundQuotient num den := by
  have hdiv := Nat.div_add_mod num den
  have hmod := Nat.mod_lt num hden
  have hround := le_roundQuotient num den
  by_contra hsmall
  have hquotient : num / den = 2 ^ 53 - 1 := by
    by_contra hne
    have hle : num / den ≤ 2 ^ 53 - 2 := by omega
    have := Nat.mul_le_mul_left den hle
    omega
  have := @succ_le_roundQuotient num den (by rw [hquotient]; rfl)
    (by rw [hquotient] at hdiv; omega)
  omega

/-- In units of `2 ^ 971`, such a fraction is half a unit or less below a power of two. -/
theorem scaled_half {num den : Nat} {e : Int} (hden : 0 < den) (he : e = 971)
    (h : ((2 : ℚ) ^ 54 - 1) * 2 ^ (970 : Int) * den ≤ num) :
    (2 ^ 54 - 1) * (scaleDown num den e).2 ≤ 2 * (scaleDown num den e).1 := by
  have htwo : (2 : ℚ) ^ e = 2 * 2 ^ (970 : Int) := by
    rw [he, show (971 : Int) = 1 + 970 by rfl, zpow_add₀ (by norm_num), zpow_one]
  have hpow : (0 : ℚ) < 2 ^ (970 : Int) := zpow_pos (by norm_num) _
  have hratio := scaleDown_ratio num den e
  have hd : (0 : ℚ) < (scaleDown num den e).2 := by exact_mod_cast scaleDown_pos hden e
  have hden' : (0 : ℚ) < den := by exact_mod_cast hden
  rw [htwo] at hratio
  generalize (2 : ℚ) ^ (970 : Int) = p at *
  have hle : ((2 : ℚ) ^ 54 - 1) * (scaleDown num den e).2 ≤ 2 * (scaleDown num den e).1 := by
    refine le_of_mul_le_mul_right ?_ (mul_pos hpow hden')
    calc ((2 : ℚ) ^ 54 - 1) * (scaleDown num den e).2 * (p * den)
        = ((2 : ℚ) ^ 54 - 1) * p * den * (scaleDown num den e).2 := by ring
      _ ≤ (num : ℚ) * (scaleDown num den e).2 := mul_le_mul_of_nonneg_right h hd.le
      _ = 2 * (scaleDown num den e).1 * (p * den) := by
        rw [← hratio]
        ring
  have hcast : (((2 ^ 54 - 1) * (scaleDown num den e).2 : Nat) : ℚ) ≤
      (2 * (scaleDown num den e).1 : Nat) := by
    push_cast
    norm_num at hle ⊢
    exact hle
  exact_mod_cast hcast

/-- A fraction that is beyond the greatest double by half a unit or more is rounded to infinity. -/
theorem nearestBits_overflow {num den : Nat} (hden : 0 < den)
    (h : ((2 : ℚ) ^ 54 - 1) * 2 ^ (970 : Int) * den ≤ num) : nearestBits num den = infinityBits := by
  have hhalf : ∀ e : Int, e = 971 →
      (2 ^ 54 - 1) * (scaleDown num den e).2 ≤ 2 * (scaleDown num den e).1 :=
    fun e he => scaled_half hden he h
  have hden' : (0 : ℚ) < den := by exact_mod_cast hden
  have hlarge : ∀ k : Int, k ≤ 970 → (2 : ℚ) ^ k ≤ 2 ^ (970 : Int) :=
    fun k hk => zpow_le_zpow_right₀ (by norm_num) hk
  have hpow : (0 : ℚ) < 2 ^ (970 : Int) := zpow_pos (by norm_num) _
  generalize (2 : ℚ) ^ (970 : Int) = p at *
  have hpos : 0 < p * den := mul_pos hpow hden'
  have hnum : 0 < num := by
    have : (0 : ℚ) < num := by nlinarith
    exact_mod_cast this
  obtain ⟨hunit₁, hunit₂, hunit₃⟩ := unitExponent_spec hnum hden
  have hbits : infinityBits = 2047 * 2 ^ 52 := rfl
  rw [nearestBits_eq hnum]
  refine Nat.min_eq_right ?_
  generalize unitExponent num den = e at *
  have hlarge' : 971 ≤ e := by
    by_contra hsmall
    have hle : (2 : ℚ) ^ e * den ≤ p * den :=
      mul_le_mul_of_nonneg_right (hlarge e (by omega)) hden'.le
    nlinarith
  have hquotient : 2 ^ 52 ≤ (scaleDown num den e).1 / (scaleDown num den e).2 := by
    rw [le_quotient_iff hden]
    exact_mod_cast hunit₃.resolve_left (by omega)
  have hround := le_roundQuotient (scaleDown num den e).1 (scaleDown num den e).2
  rw [hbits]
  -- the greatest exponent needs the carry of rounding, the ones behind it do not
  rcases Int.lt_or_eq_of_le hlarge' with hbeyond | heq
  · omega
  · have := le_roundQuotient_of_half (scaleDown_pos hden e) (hhalf e heq.symm)
    omega

/-! ## Reading decimal numbers -/

/-- The powers of two that doubles need are below a power of ten. -/
theorem two_pow_le_ten_pow {k : Int} (hk : k ≤ 1200) : (2 : ℚ) ^ k ≤ 10 ^ (400 : Int) :=
  calc (2 : ℚ) ^ k ≤ 2 ^ (1200 : Int) := zpow_le_zpow_right₀ (by norm_num) hk
    _ = (2 ^ (3 : Int)) ^ (400 : Int) := by rw [← zpow_mul]; rfl
    _ ≤ 10 ^ (400 : Int) := zpow_le_zpow_left₀ (by norm_num) (by norm_num) (by norm_num)

theorem ten_pow_le_two_pow {k : Int} (hk : -1200 ≤ k) : (10 : ℚ) ^ (-400 : Int) ≤ 2 ^ k := by
  rw [← Int.neg_neg k, zpow_neg, zpow_neg]
  exact inv_anti₀ (zpow_pos (by norm_num) _) (two_pow_le_ten_pow (by omega))

/-- The number that the digits and the exponent stand for. -/
def value (d : Decimal) : ℚ := d.digits * 10 ^ d.exponent

/-- The nearest double has the nearest bits. -/
theorem toNat_toBits_nearest (num den : Nat) :
    (nearest num den).toBits.toNat = nearestBits num den := by
  have hle := nearestBits_le num den
  have hbits : infinityBits = 0x7FF0000000000000 := rfl
  exact Number.toNat_toBits_ofBits (by omega) (by omega)

/-- A decimal number is read as a double that is not negative and is a number. -/
theorem toFloat_numeric (d : Decimal) : d.toFloat.toBits.toNat ≤ infinityBits := by
  unfold toFloat
  simp only
  split
  · rw [toNat_toBits_nearest]
    exact nearestBits_le _ _
  · split
    · exact Nat.le_of_eq (Number.toNat_toBits_ofBits (by decide) (by decide))
    · rw [toNat_toBits_nearest]
      exact nearestBits_le _ _

/-- The bits of infinity make an infinite double. -/
theorem nearest_eq_infinity {num den : Nat} (h : nearestBits num den = infinityBits) :
    nearest num den = Number.infinity := by
  rw [nearest, h]
  rfl

/-- The fraction that a decimal number is read from. -/
theorem value_mul (d : Decimal) :
    ((d.digits * 10 ^ d.exponent.toNat : Nat) : ℚ) = d.value * (10 ^ (-d.exponent).toNat : Nat) := by
  rw [value]
  rcases Int.eq_nat_or_neg d.exponent with ⟨k, h | h⟩ <;> rw [h]
  · have hzero : (-(k : Int)).toNat = 0 := by omega
    simp [hzero]
  · have hzero : (-(k : Int)).toNat = 0 := by omega
    simp [hzero]

/-- A decimal number is below the power of ten that its digits do not reach. -/
theorem value_lt (d : Decimal) :
    d.value < 10 ^ (d.exponent + (Nat.toDigits 10 d.digits).length) := by
  have hdigits : d.digits < 10 ^ (Nat.toDigits 10 d.digits).length :=
    (Nat.length_toDigits_le_iff (by decide) Nat.length_toDigits_pos).mp (Nat.le_refl _)
  have hcast : (d.digits : ℚ) < 10 ^ (Nat.toDigits 10 d.digits).length := by exact_mod_cast hdigits
  rw [value, zpow_add₀ (by norm_num), mul_comm ((10 : ℚ) ^ d.exponent), zpow_natCast]
  exact mul_lt_mul_of_pos_right hcast (zpow_pos (by norm_num) _)

/-- The three ways of reading a decimal number agree with rounding the fraction, unless the number is
smaller than all doubles by far. -/
theorem toFloat_eq {d : Decimal} (hdigits : d.digits ≠ 0) (hsmall : 10 ^ (-400 : Int) ≤ d.value) :
    d.toFloat = if d.exponent > 400 then Number.infinity
      else nearest (d.digits * 10 ^ d.exponent.toNat) (10 ^ (-d.exponent).toNat) := by
  unfold toFloat
  simp only
  rw [if_neg]
  · rfl
  · rintro (h | h)
    · exact hdigits h
    · have hle : (10 : ℚ) ^ (d.exponent + (Nat.toDigits 10 d.digits).length) ≤ 10 ^ (-400 : Int) :=
        zpow_le_zpow_right₀ (by norm_num) (by omega)
      exact absurd (hsmall.trans_lt d.value_lt) (not_lt.mpr hle)

/-- A number beyond the greatest double by half a unit or more is read as infinity. -/
theorem toFloat_overflow {d : Decimal} (h : ((2 : ℚ) ^ 54 - 1) * 2 ^ (970 : Int) ≤ d.value) :
    d.toFloat = Number.infinity := by
  have hone : (1 : ℚ) ≤ d.value := by
    have hpow : (2 : ℚ) ^ (0 : Int) ≤ 2 ^ (970 : Int) :=
      zpow_le_zpow_right₀ (by norm_num) (by norm_num)
    generalize (2 : ℚ) ^ (970 : Int) = p at *
    norm_num at hpow h
    linarith
  have hsmall : (10 : ℚ) ^ (-400 : Int) ≤ d.value :=
    (zpow_le_one_of_nonpos₀ (by norm_num) (by norm_num)).trans hone
  have hdigits : d.digits ≠ 0 := by
    intro hzero
    rw [value, hzero] at hone
    norm_num at hone
  rw [toFloat_eq hdigits hsmall]
  split
  · rfl
  · refine nearest_eq_infinity (nearestBits_overflow (Nat.pow_pos (by decide)) ?_)
    rw [value_mul]
    have hden : (0 : ℚ) ≤ (10 ^ (-d.exponent).toNat : Nat) := Nat.cast_nonneg _
    exact mul_le_mul_of_nonneg_right h hden

/-- Zeros behind the digits are as good as an exponent. -/
theorem toFloat_shift {n k : Nat} (hk : k ≤ 400) :
    (Decimal.mk (n * 10 ^ k) 0).toFloat = (Decimal.mk n k).toFloat := by
  by_cases hn : n = 0
  · subst hn
    simp [toFloat]
  · unfold toFloat
    simp only
    rw [if_neg (by simp [hn]), if_neg (by decide), if_neg (by simp [hn]; omega), if_neg (by omega)]
    simp

/-- An exponent that is large by far leaves no finite double but zero. -/
theorem exponent_le_of_finite {d : Decimal} (h : d.toFloat.toBits.toNat < infinityBits)
    (hzero : d.toFloat.toBits.toNat ≠ 0) : d.exponent ≤ 400 := by
  by_contra hlarge
  unfold toFloat at h hzero
  simp only at h hzero
  split at h
  · next hsmall =>
    rw [if_pos hsmall, toNat_toBits_nearest] at hzero
    exact hzero rfl
  · rw [if_pos (by omega), Number.toNat_toBits_ofBits (by decide) (by decide)] at h
    exact absurd h (Nat.lt_irrefl _)

/-! ## Doubles as decimal numbers -/

/-- A finite double is one of the numbers that rounding can give. -/
theorem ofFloat_canonical {x : Float} (hx : x.toBits.toNat < infinityBits) :
    (Dyadic.ofFloat x).mantissa < 2 ^ 53 ∧ -1074 ≤ (Dyadic.ofFloat x).exponent
      ∧ ((Dyadic.ofFloat x).exponent = -1074 ∨ 2 ^ 52 ≤ (Dyadic.ofFloat x).mantissa)
      ∧ ((Dyadic.ofFloat x).exponent + 1074).toNat * 2 ^ 52 + (Dyadic.ofFloat x).mantissa =
        x.toBits.toNat := by
  unfold Dyadic.ofFloat infinityBits at *
  generalize x.toBits.toNat = bits at *
  simp only
  split <;> omega

/-- The exact digits of a double have its value. -/
theorem exact_value (d : Dyadic) :
    (exact d).value = d.mantissa * 2 ^ d.exponent ∧ (exact d).exponent ≤ 0
      ∧ ((exact d).digits = 0 ↔ d.mantissa = 0) := by
  unfold exact
  split
  · next h =>
    refine ⟨?_, le_refl _, ?_⟩
    · obtain ⟨k, hk⟩ := Int.eq_ofNat_of_zero_le h
      simp [value, Dyadic.numerator, Nat.shiftLeft_eq, hk]
    · simp [Dyadic.numerator]
  · next h =>
    refine ⟨?_, ?_, ?_⟩
    · obtain ⟨k, hk⟩ : ∃ k : Nat, d.exponent = -k := ⟨(-d.exponent).toNat, by omega⟩
      rw [value]
      simp only [hk, Int.neg_neg, Int.toNat_natCast, zpow_neg, zpow_natCast, Nat.pow_eq]
      push_cast
      rw [show (10 : ℚ) = 5 * 2 by norm_num, mul_pow]
      field_simp
    · show d.exponent ≤ 0
      omega
    · simp

/-- A positive finite double is read back from its digits. -/
theorem exact_toFloat {x : Float} (hx : x.toBits.toNat < infinityBits)
    (hpos : (Dyadic.ofFloat x).mantissa ≠ 0) : (exact (Dyadic.ofFloat x)).toFloat = x := by
  obtain ⟨hlt, hmin, hnormal, hbits⟩ := ofFloat_canonical hx
  obtain ⟨hvalue, hexponent, hzero⟩ := exact_value (Dyadic.ofFloat x)
  generalize exact (Dyadic.ofFloat x) = d at *
  have hm : 0 < (Dyadic.ofFloat x).mantissa := Nat.pos_of_ne_zero hpos
  have hsmall : (10 : ℚ) ^ (-400 : Int) ≤ d.value := by
    have hone : (1 : ℚ) ≤ (Dyadic.ofFloat x).mantissa := by exact_mod_cast hm
    have hpow : (2 : ℚ) ^ (-1074 : Int) ≤ 2 ^ (Dyadic.ofFloat x).exponent :=
      zpow_le_zpow_right₀ (by norm_num) hmin
    have hbound : (10 : ℚ) ^ (-400 : Int) ≤ 2 ^ (-1074 : Int) := ten_pow_le_two_pow (by norm_num)
    rw [hvalue]
    nlinarith [zpow_pos (show (0 : ℚ) < 2 by norm_num) (Dyadic.ofFloat x).exponent]
  rw [toFloat_eq (fun h => hpos (hzero.mp h)) hsmall, if_neg (by omega)]
  refine Number.eq_of_toNat ?_
  rw [toNat_toBits_nearest, nearestBits_exact (Nat.pow_pos (by decide)) hm hlt hmin hnormal
    (by rw [value_mul, hvalue]), hbits]
  omega

/-- A positive finite double is read back from its shortest digits. -/
theorem shortest_toFloat (tie : Tie) {x : Float} (hx : x.toBits.toNat < infinityBits)
    (hpos : (Dyadic.ofFloat x).mantissa ≠ 0) : (shortest tie x).toFloat = x := by
  unfold shortest
  simp only
  cases hhit : firstHit? x tie (Dyadic.ofFloat x).numerator (Dyadic.ofFloat x).denominator
      ((coarsest (Dyadic.ofFloat x) - min (Dyadic.ofFloat x).exponent 0).toNat + 1)
      (coarsest (Dyadic.ofFloat x)) with
  | none => exact exact_toFloat hx hpos
  | some d => exact firstHit?_toFloat hhit

end DerivedStats.Decimal
