import DerivedStats.Number
import Mathlib

/-!
# The bits of doubles

A double is a sign bit, eleven bits of exponent and fifty-two bits of mantissa. This file states what
the bits tell: which doubles are infinite or not a number, that building a double from bits gives
these bits back (`toNat_toBits_ofBits`), and what changing the sign does. The part without the sign
bit orders the doubles of one sign, with infinity above all finite ones.
-/

namespace DerivedStats.Number

open Float.Model Float.Model.UnpackedFloat
open Decimal (infinityBits)

/-- The bits without the sign bit. -/
def magnitudeBits (x : Float) : Nat := x.toBits.toNat % 2 ^ 63

/-! ## The parts of a pattern of bits -/

/-- The last 52 bits are the mantissa. -/
theorem toNat_unpackMantissa (b : BitVec 64) :
    (@unpackMantissa Format.binary64 b).toNat = b.toNat % 2 ^ 52 := by
  simp [unpackMantissa]

/-- The 11 bits in front of the mantissa are the exponent. -/
theorem toNat_unpackExponent (b : BitVec 64) :
    (@unpackExponent Format.binary64 b).toNat = b.toNat / 2 ^ 52 % 2 ^ 11 := by
  simp [unpackExponent, Nat.shiftRight_eq_div_pow]

/-- The first bit is the sign. -/
theorem toNat_unpackSign (b : BitVec 64) :
    (@unpackSign Format.binary64 b).toNat = b.toNat / 2 ^ 63 := by
  have := b.isLt
  simp [unpackSign, Nat.shiftRight_eq_div_pow]
  omega

/-- Sign, exponent and mantissa stand one behind the other in the bits. -/
theorem toNat_packComponents (s : UnpackedFloat.Sign) (e : BitVec 11) (m : BitVec 52) :
    (packComponents Format.binary64 s e m).toNat =
      s.toBitVec.toNat * 2 ^ 63 + e.toNat * 2 ^ 52 + m.toNat := by
  simp only [packComponents, BitVec.toNat_append]
  rw [← Nat.shiftLeft_add_eq_or_of_lt e.isLt, ← Nat.shiftLeft_add_eq_or_of_lt m.isLt,
    Nat.shiftLeft_eq, Nat.shiftLeft_eq]
  ring

theorem toNat_sign (v : BitVec 1) : (UnpackedFloat.Sign.ofBitVec v).toBitVec.toNat = v.toNat := by
  rcases BitVec.eq_zero_or_eq_one v with rfl | rfl <;> rfl

/-- A pattern is put together from its parts. -/
theorem packComponents_parts (b : BitVec 64) :
    packComponents Format.binary64 (.ofBitVec (@unpackSign Format.binary64 b))
      (@unpackExponent Format.binary64 b) (@unpackMantissa Format.binary64 b)
      = b := by
  have hb := b.isLt
  apply BitVec.eq_of_toNat_eq
  rw [toNat_packComponents, toNat_sign, toNat_unpackSign, toNat_unpackExponent,
    toNat_unpackMantissa]
  omega

/-- The greatest exponent is 2047. -/
theorem exponent_eq_ones {b : BitVec 64} :
    @unpackExponent Format.binary64 b = -1#11 ↔ b.toNat / 2 ^ 52 % 2 ^ 11 = 2047 := by
  rw [← toNat_unpackExponent, ← BitVec.toNat_inj]
  rfl

theorem mantissa_eq_zero {b : BitVec 64} :
    @unpackMantissa Format.binary64 b = 0#52 ↔ b.toNat % 2 ^ 52 = 0 := by
  rw [← toNat_unpackMantissa, ← BitVec.toNat_inj]
  rfl

/-! ## Doubles and their bits -/

/-- A double is determined by its bits. -/
theorem eq_of_toBits {x y : Float} (h : x.toBits = y.toBits) : x = y := by
  obtain ⟨⟨a, ha⟩⟩ := x
  obtain ⟨⟨b, hb⟩⟩ := y
  obtain rfl : a = b := h
  rfl

theorem eq_of_toNat {x y : Float} (h : x.toBits.toNat = y.toBits.toNat) : x = y :=
  eq_of_toBits (UInt64.toNat_inj.mp h)

/-- Without the sign, the bits are the exponent and the mantissa. -/
theorem magnitude_parts (n : Nat) :
    n % 2 ^ 63 = n / 2 ^ 52 % 2 ^ 11 * 2 ^ 52 + n % 2 ^ 52 := by
  omega

/-- Bits above those of infinity stand for no number, and those of infinity for an infinity. -/
theorem unpack_special (b : BitVec 64) :
    ((UnpackedFloat.unpack Format.binary64 b).isNaN = true ↔ infinityBits < b.toNat % 2 ^ 63)
      ∧ ((UnpackedFloat.unpack Format.binary64 b).isInf = true ↔
        b.toNat % 2 ^ 63 = infinityBits) := by
  rw [UnpackedFloat.unpack, magnitude_parts]
  split
  · next he =>
    rw [exponent_eq_ones.mp he]
    split
    · next hm =>
      rw [mantissa_eq_zero.mp hm]
      simp [UnpackedFloat.isNaN, UnpackedFloat.isInf, infinityBits]
    · next hm =>
      have hm : ¬ b.toNat % 2 ^ 52 = 0 := fun h => hm (mantissa_eq_zero.mpr h)
      simp only [UnpackedFloat.isNaN, UnpackedFloat.isInf, infinityBits, Bool.false_eq_true,
        false_iff, true_iff]
      omega
  · next he =>
    have hfinite : ∀ {f : UnpackedFloat}, f.isNaN = false → f.isInf = false →
        (f.isNaN = true ↔ infinityBits < b.toNat / 2 ^ 52 % 2 ^ 11 * 2 ^ 52 + b.toNat % 2 ^ 52)
          ∧ (f.isInf = true ↔
            b.toNat / 2 ^ 52 % 2 ^ 11 * 2 ^ 52 + b.toNat % 2 ^ 52 = infinityBits) := by
      intro f hnan hinf
      have he : ¬ b.toNat / 2 ^ 52 % 2 ^ 11 = 2047 := fun h => he (exponent_eq_ones.mpr h)
      rw [hnan, hinf, infinityBits]
      simp only [Bool.false_eq_true, false_iff]
      omega
    split
    · split
      · exact hfinite rfl rfl
      · exact hfinite rfl rfl
    · exact hfinite rfl rfl

/-- A double is not a number if its bits without the sign are above those of infinity. -/
theorem isNaN_iff {x : Float} : x.isNaN = true ↔ infinityBits < magnitudeBits x :=
  (unpack_special x.toBits.toBitVec).1

/-- A double is infinite if its bits without the sign are those of infinity. -/
theorem isInf_iff {x : Float} : x.isInf = true ↔ magnitudeBits x = infinityBits :=
  (unpack_special x.toBits.toBitVec).2

/-- There is one value that is not a number. -/
theorem eq_nan {x : Float} (h : x.isNaN = true) : x = nan := by
  refine eq_of_toBits ?_
  obtain ⟨⟨b, hvalid⟩⟩ := x
  rw [isNaN_iff] at h
  have hb := b.toNat_lt
  have hcanonical := hvalid.eq_packedNaN
  simp only [magnitudeBits, infinityBits, Float.toBits] at h
  show b = nan.toBits
  rw [← UInt64.toBitVec_inj]
  refine (hcanonical (exponent_eq_ones.mpr ?_) fun hm => ?_).trans (by decide +kernel)
  · show b.toNat / 2 ^ 52 % 2 ^ 11 = 2047
    omega
  · have := mantissa_eq_zero.mp hm
    rw [show b.toBitVec.toNat = b.toNat from rfl] at this
    omega

/-! ## Building doubles from bits -/

/-- The same number with a sign; what is not a number has none. -/
def withSign (s : UnpackedFloat.Sign) : UnpackedFloat → UnpackedFloat
  | .notANumber => .notANumber
  | .infinity _ => .infinity s
  | .zero _ => .zero s
  | .finite _ m e hm => .finite s m e hm

/-- The bits encode a number or an infinity. -/
def IsNumeric (b : BitVec 64) : Prop := b.toNat % 2 ^ 63 ≤ infinityBits

/-- A subnormal number has the least exponent and fewer bits than there is room for. -/
theorem pack_subnormal (s : UnpackedFloat.Sign) {m : BitVec 52} {e : Int} (he : e = -1074)
    (hpos : 0 < m.toNat) :
    UnpackedFloat.pack Format.binary64 (.finite s m.toNat e hpos) =
      packComponents Format.binary64 s 0#11 m := by
  have hlog : m.toNat.log2 < 52 := (Nat.log2_lt (Nat.ne_of_gt hpos)).mpr m.isLt
  have hbias : (Format.binary64.exponentBias : Int) = 1023 := rfl
  have hbits : Format.binary64.mantissaBits = 53 := rfl
  subst he
  rw [UnpackedFloat.pack]
  simp only [hbias, hbits]
  rw [if_neg (by decide), if_neg (by omega), BitVec.ofNat_toNat]
  rfl

/-- Of a normal number the first bit of the mantissa is left out. -/
theorem pack_normal (s : UnpackedFloat.Sign) {m : BitVec 52} {e : BitVec 11}
    (he : e.toNat ≠ 2047) (hpos : 0 < (1#1 ++ m).toNat) :
    UnpackedFloat.pack Format.binary64
        (.finite s (1#1 ++ m).toNat ((e.toNat : Int) - (1023 + (52 : Nat))) hpos) =
      packComponents Format.binary64 s e m := by
  have hlt := e.isLt
  have hm := m.isLt
  have happend : (1#1 ++ m).toNat = 2 ^ 52 + m.toNat := by
    rw [BitVec.toNat_append, ← Nat.shiftLeft_add_eq_or_of_lt hm]
    rfl
  have hlog : (2 ^ 52 + m.toNat).log2 = 52 := by
    rw [Nat.log2_eq_iff (by omega)]
    omega
  have hbias : (Format.binary64.exponentBias : Int) = 1023 := rfl
  have hbits : Format.binary64.mantissaBits = 53 := rfl
  have hbiased : ((e.toNat : Int) - (1023 + (52 : Nat)) + 1023 + (52 : Nat)).toNat = e.toNat := by
    omega
  rw [UnpackedFloat.pack]
  simp only [hbias, hbits, happend, hlog, hbiased]
  rw [if_neg (by omega), if_pos (by decide)]
  congr 1 <;>
    (apply BitVec.eq_of_toNat_eq
     rw [BitVec.toNat_ofNat]
     omega)

/-- Packing the number that bits encode gives the bits back, but for the sign if that was changed. -/
theorem pack_withSign_unpack {b : BitVec 64} (h : IsNumeric b) (s : UnpackedFloat.Sign) :
    UnpackedFloat.pack Format.binary64 (withSign s (UnpackedFloat.unpack Format.binary64 b)) =
      packComponents Format.binary64 s (@unpackExponent Format.binary64 b)
        (@unpackMantissa Format.binary64 b) := by
  rw [IsNumeric, magnitude_parts, infinityBits] at h
  rw [UnpackedFloat.unpack]
  split
  · next he =>
    split
    · next hm =>
      rw [he, hm]
      rfl
    · next hm =>
      have he := exponent_eq_ones.mp he
      exact absurd (mantissa_eq_zero.mpr (by omega)) hm
  · next he =>
    split
    · next he0 =>
      split
      · next hm =>
        rw [he0, hm]
        rfl
      · next hm =>
        rw [he0]
        exact pack_subnormal s rfl _
    · exact pack_normal s (fun h => he (exponent_eq_ones.mpr (toNat_unpackExponent b ▸ h))) _

/-- What bits stand for has the sign of the bits. -/
theorem withSign_unpackSign (b : BitVec 64) :
    withSign (.ofBitVec (@unpackSign Format.binary64 b))
      (UnpackedFloat.unpack Format.binary64 b) = UnpackedFloat.unpack Format.binary64 b := by
  unfold UnpackedFloat.unpack
  simp only
  split
  · split <;> rfl
  · split
    · split <;> rfl
    · rfl

/-- Negation gives the other sign to what bits stand for. -/
theorem neg_unpack (b : BitVec 64) :
    (UnpackedFloat.unpack Format.binary64 b).neg =
      withSign (-.ofBitVec (@unpackSign Format.binary64 b))
        (UnpackedFloat.unpack Format.binary64 b) := by
  unfold UnpackedFloat.unpack
  simp only
  split
  · split <;> rfl
  · split
    · split <;> rfl
    · rfl

/-- A double built from bits that encode a number has these bits. -/
theorem toBits_ofBits {b : UInt64} (h : b.toNat % 2 ^ 63 ≤ infinityBits) :
    (Float.ofBits b).toBits = b := by
  show UInt64.ofBitVec (UnpackedFloat.pack Format.binary64
    (UnpackedFloat.unpack Format.binary64 b.toBitVec)) = b
  rw [← withSign_unpackSign, pack_withSign_unpack h, packComponents_parts]

/-- A number that encodes a double is found again in its bits. -/
theorem toNat_toBits_ofBits {n : Nat} (h : n % 2 ^ 63 ≤ infinityBits) (hn : n < 2 ^ 64) :
    (Float.ofBits n.toUInt64).toBits.toNat = n := by
  have hto : n.toUInt64.toNat = n := by
    rw [Nat.toUInt64_eq, UInt64.toNat_ofNat', Nat.mod_eq_of_lt hn]
  rw [toBits_ofBits (by rwa [hto]), hto]

/-- Negation changes the sign bit. -/
theorem toNat_toBits_neg {x : Float} (h : x.isNaN = false) :
    (-x).toBits.toNat = (x.toBits.toNat + 2 ^ 63) % 2 ^ 64 := by
  have hnumeric : IsNumeric x.toBits.toBitVec := by
    have := isNaN_iff (x := x)
    rw [h] at this
    exact Nat.not_lt.mp fun hlt => absurd (this.mpr hlt) (by simp)
  show (UInt64.ofBitVec (UnpackedFloat.pack Format.binary64
    (UnpackedFloat.unpack Format.binary64 x.toBits.toBitVec).neg)).toNat = _
  rw [neg_unpack, pack_withSign_unpack hnumeric]
  show (packComponents Format.binary64 _ _ _).toNat = _
  have hb := x.toBits.toBitVec.isLt
  have hsign := toNat_unpackSign x.toBits.toBitVec
  rw [toNat_packComponents, toNat_unpackExponent, toNat_unpackMantissa,
    show x.toBits.toNat = x.toBits.toBitVec.toNat from rfl]
  generalize x.toBits.toBitVec = b at *
  rcases BitVec.eq_zero_or_eq_one (@unpackSign Format.binary64 b) with hs | hs
  · have : (0#1).toNat = b.toNat / 2 ^ 63 := hs ▸ hsign
    rw [hs, show (-UnpackedFloat.Sign.ofBitVec 0#1).toBitVec.toNat = 1 from rfl]
    simp only [BitVec.toNat_ofNat] at this
    omega
  · have : (1#1).toNat = b.toNat / 2 ^ 63 := hs ▸ hsign
    rw [hs, show (-UnpackedFloat.Sign.ofBitVec 1#1).toBitVec.toNat = 0 from rfl]
    simp only [BitVec.toNat_ofNat] at this
    omega

end DerivedStats.Number
