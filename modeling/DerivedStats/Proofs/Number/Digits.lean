import DerivedStats.Proofs.Grammar.Token
import DerivedStats.Proofs.Number.Rounding

/-!
# Doubles as text

The text of a double and the sign in it. The digits of a finite double spell a number that is read as
the double without its sign (`digits_spell`); putting the sign back gives the double
(`neg_magnitude`), and a double without a sign is its own magnitude (`magnitude_eq`).
-/

namespace DerivedStats.Number

open DerivedStats.Decimal (infinityBits)
open DerivedStats.Grammar

/-! ## The sign -/

/-- A double is negative if it is a number and its sign bit is set. -/
theorem isNegative_iff {x : Float} :
    isNegative x = true ↔ x.isNaN = false ∧ 2 ^ 63 ≤ x.toBits.toNat := by
  simp only [isNegative, Bool.and_eq_true, Bool.not_eq_true', decide_eq_true_eq, ge_iff_le,
    UInt64.le_iff_toNat_le]
  rfl

/-- The magnitude of a number has the bits without the sign. -/
theorem toNat_toBits_magnitude {x : Float} (h : x.isNaN = false) :
    (magnitude x).toBits.toNat = magnitudeBits x := by
  have hand : (x.toBits &&& 0x7FFFFFFFFFFFFFFF).toNat = magnitudeBits x := by
    rw [UInt64.toNat_and, show (0x7FFFFFFFFFFFFFFF : UInt64).toNat = 2 ^ 63 - 1 from rfl,
      Nat.and_two_pow_sub_one_eq_mod]
    rfl
  have hle : magnitudeBits x ≤ infinityBits := by
    refine Nat.not_lt.mp fun hlt => ?_
    rw [isNaN_iff.mpr hlt] at h
    exact nomatch h
  rw [magnitude, toBits_ofBits, hand]
  rw [hand, magnitudeBits, Nat.mod_mod]
  exact hle

theorem magnitudeBits_magnitude {x : Float} (h : x.isNaN = false) :
    magnitudeBits (magnitude x) = magnitudeBits x := by
  rw [magnitudeBits, toNat_toBits_magnitude h, magnitudeBits, Nat.mod_mod]

theorem isNaN_magnitude {x : Float} (h : x.isNaN = false) : (magnitude x).isNaN = false := by
  rw [Bool.eq_false_iff, ne_eq, isNaN_iff, magnitudeBits_magnitude h, ← isNaN_iff, h]
  exact Bool.false_ne_true

theorem isInf_magnitude {x : Float} (h : x.isNaN = false) : (magnitude x).isInf = x.isInf := by
  rw [Bool.eq_iff_iff, isInf_iff, isInf_iff, magnitudeBits_magnitude h]

/-- A magnitude has no sign. -/
theorem isNegative_magnitude {x : Float} (h : x.isNaN = false) :
    isNegative (magnitude x) = false := by
  refine Bool.eq_false_iff.mpr fun hneg => ?_
  obtain ⟨-, hle⟩ := isNegative_iff.mp hneg
  rw [toNat_toBits_magnitude h] at hle
  exact absurd (Nat.mod_lt _ (Nat.two_pow_pos 63)) (Nat.not_lt.mpr hle)

/-- A number without a sign is its own magnitude. -/
theorem magnitude_eq {x : Float} (hnan : x.isNaN = false) (hneg : isNegative x = false) :
    magnitude x = x := by
  refine eq_of_toNat ?_
  rw [toNat_toBits_magnitude hnan, magnitudeBits]
  refine Nat.mod_eq_of_lt (Nat.not_le.mp fun hle => ?_)
  rw [isNegative_iff.mpr ⟨hnan, hle⟩] at hneg
  exact Bool.false_ne_true hneg.symm

/-- A number with a sign is its magnitude with the sign put back. -/
theorem neg_magnitude {x : Float} (hneg : isNegative x = true) : -magnitude x = x := by
  obtain ⟨hnan, hle⟩ := isNegative_iff.mp hneg
  have hlt := x.toBits.toNat_lt
  refine eq_of_toNat ?_
  rw [toNat_toBits_neg (isNaN_magnitude hnan), toNat_toBits_magnitude hnan, magnitudeBits]
  omega

/-- The magnitude of a number with a sign is its negation. -/
theorem magnitude_eq_neg {x : Float} (hneg : isNegative x = true) : magnitude x = -x := by
  obtain ⟨hnan, hle⟩ := isNegative_iff.mp hneg
  have hlt := x.toBits.toNat_lt
  refine eq_of_toNat ?_
  rw [toNat_toBits_magnitude hnan, toNat_toBits_neg hnan, magnitudeBits]
  omega

/-- A negative number is written as a minus sign and its magnitude. -/
theorem text_negative {x : Float} (hneg : isNegative x = true) (hfinite : x.isInf = false) :
    text x = "-" ++ text (magnitude x) := by
  obtain ⟨hnan, -⟩ := isNegative_iff.mp hneg
  have hmagnitude := magnitude_eq (isNaN_magnitude hnan) (isNegative_magnitude hnan)
  have hdigits : digits (magnitude x) = digits x := by rw [digits, hmagnitude, digits]
  simp only [text, hnan, hfinite, hneg, isNaN_magnitude hnan, isInf_magnitude hnan,
    isNegative_magnitude hnan, hdigits, Bool.false_eq_true, if_false, if_true]
  rw [String.ofList_cons]
  rfl

/-- There are two infinities. -/
theorem eq_infinity {x : Float} (h : x.isInf = true) :
    x = if isNegative x then negativeInfinity else infinity := by
  have hbits := isInf_iff.mp h
  have hlt := x.toBits.toNat_lt
  have hnan : x.isNaN = false := by
    rw [Bool.eq_false_iff, ne_eq, isNaN_iff, hbits]
    exact Nat.lt_irrefl _
  have hinf : infinityBits = 0x7FF0000000000000 := rfl
  have hneg := isNegative_iff (x := x)
  rw [magnitudeBits] at hbits
  refine eq_of_toNat ?_
  split
  · next h =>
    have := (hneg.mp h).2
    rw [show negativeInfinity.toBits.toNat = 0xFFF0000000000000 by decide +kernel]
    omega
  · next h =>
    have : x.toBits.toNat < 2 ^ 63 := Nat.not_le.mp fun hle => h (hneg.mpr ⟨hnan, hle⟩)
    rw [show infinity.toBits.toNat = 0x7FF0000000000000 by decide +kernel]
    omega

/-- A decimal number is read as a number without a sign. -/
theorem toFloat_sign (d : Decimal) : d.toFloat.isNaN = false ∧ isNegative d.toFloat = false := by
  have hle := d.toFloat_numeric
  have hinf : infinityBits = 0x7FF0000000000000 := rfl
  constructor
  · rw [Bool.eq_false_iff, ne_eq, isNaN_iff, magnitudeBits]
    omega
  · rw [Bool.eq_false_iff, ne_eq, isNegative_iff]
    omega

/-! ## The digits -/

/-- A number is written with digits. -/
theorem isDigits_toDigits (n : Nat) : IsDigits (Nat.toDigits 10 n) := by
  refine ⟨Nat.toDigits_ne_nil, fun c hc => ?_⟩
  have hdigit := Nat.isDigit_of_mem_toDigits (by decide) (by decide) hc
  simpa [Char.isDigit, Grammar.isDigit, Char.le_def] using hdigit

theorem isDigits_take {ds : List Char} (h : IsDigits ds) {n : Nat} (hn : 0 < n) :
    IsDigits (ds.take n) :=
  ⟨by simp [h.1, Nat.ne_of_gt hn], fun c hc => h.2 c (List.mem_of_mem_take hc)⟩

theorem isDigits_drop {ds : List Char} (h : IsDigits ds) {n : Nat} (hn : n < ds.length) :
    IsDigits (ds.drop n) :=
  ⟨by simpa using hn, fun c hc => h.2 c (List.mem_of_mem_drop hc)⟩

/-- Zeros may stand behind digits, and in front of them. -/
theorem isDigits_append_zeros {ds : List Char} (h : IsDigits ds) (k : Nat) :
    IsDigits (ds ++ List.replicate k '0') := by
  refine ⟨by simp [h.1], fun c hc => ?_⟩
  rcases List.mem_append.mp hc with hc | hc
  · exact h.2 c hc
  · rw [List.eq_of_mem_replicate hc]
    rfl

theorem isDigits_zeros (k : Nat) {ds : List Char} (h : IsDigits ds) :
    IsDigits (List.replicate k '0' ++ ds) := by
  refine ⟨by simp [h.1], fun c hc => ?_⟩
  rcases List.mem_append.mp hc with hc | hc
  · rw [List.eq_of_mem_replicate hc]
    rfl
  · exact h.2 c hc

/-- A point as many digits from the end as the exponent says stands for the exponent. -/
theorem ofText_eq {d : Decimal} {whole fraction : List Char}
    (hdigits : Nat.ofDigitChars 10 (whole ++ fraction) 0 = d.digits)
    (hlength : d.exponent = -(fraction.length : Int)) :
    Decimal.ofText whole fraction false [] = d := by
  obtain ⟨n, e⟩ := d
  simp only at hdigits hlength
  simp [Decimal.ofText, hdigits, hlength]

/-- Laid out with a point, a decimal number is read as before. -/
theorem positional_spells {d : Decimal} (hd : d.exponent ≤ 400) :
    ∃ whole f fraction, IsDigits whole ∧ SpellsFraction f fraction ∧ d.positional = whole ++ f
      ∧ (Decimal.ofText whole fraction false []).toFloat = d.toFloat := by
  have hdigits := isDigits_toDigits d.digits
  have hread := Nat.ofDigitChars_ten_toDigits (n := d.digits)
  unfold Decimal.positional
  simp only
  generalize hds : Nat.toDigits 10 d.digits = ds at *
  split
  · next hplaces =>
    -- no point: the exponent is not negative and becomes zeros
    have hexponent : d = ⟨d.digits, (d.exponent.toNat : Nat)⟩ := by
      rw [Int.toNat_of_nonneg (by omega)]
    refine ⟨_, [], [], isDigits_append_zeros hdigits _, .absent, (List.append_nil _).symm, ?_⟩
    conv_rhs => rw [hexponent]
    rw [← Decimal.toFloat_shift (by omega), Decimal.ofText]
    simp only [List.append_nil, Nat.ofDigitChars_append, hread, Nat.ofDigitChars_replicate_zero,
      Nat.ofDigitChars_nil, List.length_nil]
    rw [Nat.mul_comm]
    rfl
  · next hplaces =>
    have hexponent : d.exponent = -((-d.exponent).toNat : Nat) := by omega
    split
    · next hlen =>
      -- the point stands between two digits
      refine ⟨_, _, _, isDigits_take hdigits (by omega), .present (isDigits_drop hdigits (by omega)),
        rfl, ?_⟩
      rw [ofText_eq (by rw [List.take_append_drop, hread]) (by rw [List.length_drop]; omega)]
    · next hlen =>
      -- all digits stand behind the point, and zeros in front of them
      refine ⟨['0'], _, _, ⟨by simp, by simp [Grammar.isDigit]⟩, .present (isDigits_zeros _ hdigits),
        rfl, ?_⟩
      rw [ofText_eq]
      · rw [Nat.ofDigitChars_append, Nat.ofDigitChars_append, Nat.ofDigitChars_replicate_zero]
        simpa [Nat.ofDigitChars_cons] using hread
      · rw [List.length_append, List.length_replicate]
        omega

/-- The digits of a finite double spell a number that is read as the double without its sign. -/
theorem digits_spell {x : Float} (hnan : x.isNaN = false) (hinf : x.isInf = false) :
    ∃ whole f fraction, IsDigits whole ∧ SpellsFraction f fraction ∧ digits x = whole ++ f
      ∧ (Decimal.ofText whole fraction false []).toFloat = magnitude x := by
  have hbits := toNat_toBits_magnitude hnan
  have hfinite : (magnitude x).toBits.toNat < infinityBits := by
    rw [hbits]
    refine Nat.lt_of_le_of_ne (Nat.not_lt.mp fun hlt => ?_) fun heq => ?_
    · rw [isNaN_iff.mpr hlt] at hnan
      exact nomatch hnan
    · rw [isInf_iff.mpr heq] at hinf
      exact nomatch hinf
  unfold digits
  simp only
  split
  · next hzero =>
    refine ⟨['0'], [], [], ⟨by simp, by simp [Grammar.isDigit]⟩, .absent, rfl, eq_of_toNat ?_⟩
    obtain ⟨-, -, -, hparts⟩ := Decimal.ofFloat_canonical hfinite
    have hexponent : (Dyadic.ofFloat (magnitude x)).exponent = -1074 := by
      have := (Decimal.ofFloat_canonical hfinite).2.2.1
      omega
    rw [← hparts, hzero, hexponent]
    decide +kernel
  · next hpos =>
    have hread := Decimal.shortest_toFloat .up hfinite hpos
    have hexponent : (Decimal.shortest .up (magnitude x)).exponent ≤ 400 := by
      refine Decimal.exponent_le_of_finite (hread.symm ▸ hfinite) fun hzero => hpos ?_
      obtain ⟨-, -, -, hparts⟩ := Decimal.ofFloat_canonical hfinite
      rw [hread] at hzero
      omega
    obtain ⟨whole, f, fraction, hwhole, hf, htext, hvalue⟩ := positional_spells hexponent
    exact ⟨whole, f, fraction, hwhole, hf, htext, hvalue.trans hread⟩

end DerivedStats.Number
