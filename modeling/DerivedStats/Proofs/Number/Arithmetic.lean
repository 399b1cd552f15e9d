import DerivedStats.Proofs.Number.Order

/-!
# Which results are numbers

When a sum, a difference or a quotient of doubles is not a number, and what infinite operands give.
An operation first works on what its operands stand for, and rounding makes a number of a number, of
whatever size (`isFinite_roundWithAccuracy`); then its result is packed, which may make it infinite,
but never other than a number (`isNaN_unpack_pack`).

The quotient by a count is here as well: the double of a positive count stands for a number other
than zero (`unpacked_ofNat`), for rounding keeps the 53 first bits (`isNormal_roundWithAccuracy`).
-/

namespace DerivedStats.Number

open Float.Model (Format UnpackedFloat)
open Float.Model.UnpackedFloat
open Decimal (infinityBits)

variable {x y : Float} {a b : UnpackedFloat}

/-! ## Operations on what doubles stand for -/

/-- What rounding makes of a number is a number, of whatever size. -/
theorem isFinite_roundWithAccuracy (s : Sign) (m : Nat) (e : Int) (accuracy : Accuracy) :
    (roundWithAccuracy Format.binary64 s m e accuracy).isFinite = true := by
  unfold roundWithAccuracy
  simp only
  split <;> rfl

/-- Normalizing gives a number, of whatever size. -/
theorem isFinite_normalize (m : Int) (e : Int) (s : Sign) :
    (UnpackedFloat.normalize Format.binary64 m e s).isFinite = true := by
  unfold UnpackedFloat.normalize
  split
  · exact isFinite_roundWithAccuracy _ _ _ _
  · rfl
  · exact isFinite_roundWithAccuracy _ _ _ _

theorem isNaN_of_isFinite (h : a.isFinite = true) : a.isNaN = false := by
  cases a <;> first | rfl | exact nomatch h

/-- A sum is a number unless a summand is none, or the summands are the two infinities. -/
theorem isNaN_add_unpacked :
    (UnpackedFloat.add Format.binary64 a b).isNaN = true
      ↔ a.isNaN = true ∨ b.isNaN = true ∨ a.isInf = true ∧ b.isInf = true ∧ a ≠ b := by
  cases a with
  | notANumber => simp [add, isNaN]
  | infinity s =>
    cases b with
    | infinity t => cases s <;> cases t <;> simp [add, isNaN, isInf]
    | notANumber | zero | finite => simp [add, isNaN, isInf]
  | zero s =>
    cases b with
    | zero t => cases s <;> cases t <;> simp [add, isNaN, isInf]
    | notANumber | infinity | finite => simp [add, isNaN, isInf]
  | finite s m e hm =>
    cases b with
    | finite =>
      rw [add, isNaN_of_isFinite (isFinite_normalize _ _ _)]
      simp [isNaN, isInf]
    | notANumber | infinity | zero => simp [add, isNaN, isInf]

/-- A difference is a number unless an operand is none, or both are one infinity. -/
theorem isNaN_sub_unpacked :
    (UnpackedFloat.sub Format.binary64 a b).isNaN = true
      ↔ a.isNaN = true ∨ b.isNaN = true ∨ a.isInf = true ∧ a = b := by
  cases a with
  | notANumber => simp [sub, isNaN]
  | infinity s =>
    cases b with
    | infinity t => cases s <;> cases t <;> simp [sub, isNaN, isInf] <;> decide
    | notANumber | zero | finite => simp [sub, isNaN, isInf]
  | zero s =>
    cases b with
    | zero t =>
      rw [sub]
      split <;> simp [isNaN, isInf]
    | notANumber | infinity | finite => simp [sub, isNaN, isInf]
  | finite s m e hm =>
    cases b with
    | finite =>
      rw [sub, isNaN_of_isFinite (isFinite_normalize _ _ _)]
      simp [isNaN, isInf]
    | notANumber | infinity | zero => simp [sub, isNaN, isInf]

/-- A sum with an infinity is that infinity, if it is a number at all. -/
theorem add_unpacked_left (ha : a.isInf = true)
    (h : (UnpackedFloat.add Format.binary64 a b).isNaN = false) :
    UnpackedFloat.add Format.binary64 a b = a := by
  cases a with
  | notANumber | zero | finite => exact nomatch ha
  | infinity s =>
    cases b with
    | notANumber => exact nomatch h
    | zero | finite => rfl
    | infinity t => cases s <;> cases t <;> first | rfl | exact nomatch h

theorem add_unpacked_right (hb : b.isInf = true)
    (h : (UnpackedFloat.add Format.binary64 a b).isNaN = false) :
    UnpackedFloat.add Format.binary64 a b = b := by
  cases b with
  | notANumber | zero | finite => exact nomatch hb
  | infinity t =>
    cases a with
    | notANumber => exact nomatch h
    | zero | finite => rfl
    | infinity s => cases s <;> cases t <;> first | rfl | exact nomatch h

/-- A difference from an infinity is that infinity, if it is a number at all. -/
theorem sub_unpacked_left (ha : a.isInf = true)
    (h : (UnpackedFloat.sub Format.binary64 a b).isNaN = false) :
    UnpackedFloat.sub Format.binary64 a b = a := by
  cases a with
  | notANumber | zero | finite => exact nomatch ha
  | infinity s =>
    cases b with
    | notANumber => exact nomatch h
    | zero | finite => rfl
    | infinity t => cases s <;> cases t <;> first | rfl | exact nomatch h

/-- A quotient by a number that is neither zero nor infinite is one if the dividend is. -/
theorem isNaN_div_unpacked (s : Sign) (m : Nat) (e : Int) (hm : 0 < m) :
    (UnpackedFloat.div Format.binary64 a (.finite s m e hm)).isNaN = a.isNaN := by
  cases a with
  | notANumber | infinity | zero => rfl
  | finite => exact isNaN_of_isFinite (isFinite_roundWithAccuracy _ _ _ _)

/-! ## Packing -/

/-- The bits of an infinity stand for it. -/
theorem unpack_packedInfinity (s : Sign) :
    UnpackedFloat.unpack Format.binary64 (packedInfinity Format.binary64 s) = .infinity s := by
  simp [UnpackedFloat.unpack, packedInfinity]

/-- Bits whose exponent is not the greatest one stand for a number. -/
theorem isNaN_unpack_packComponents (s : Sign) {e : BitVec 11} (he : e.toNat < 2047)
    (m : BitVec 52) : (UnpackedFloat.unpack Format.binary64
      (packComponents Format.binary64 s e m)).isNaN = false := by
  have hm := m.isLt
  have hs := s.toBitVec.isLt
  have htoNat : (packComponents Format.binary64 s e m).toNat
      = s.toBitVec.toNat * 2 ^ 63 + e.toNat * 2 ^ 52 + m.toNat := toNat_packComponents s e m
  rw [Bool.eq_false_iff, Ne, (unpack_special _).1, htoNat, infinityBits]
  omega

/-- Packing may make a number infinite, but never other than a number. -/
theorem isNaN_unpack_pack (a : UnpackedFloat) :
    (UnpackedFloat.unpack Format.binary64 (UnpackedFloat.pack Format.binary64 a)).isNaN
      = a.isNaN := by
  cases a with
  | notANumber => rw [UnpackedFloat.pack, unpack_packedNaN]
  | infinity s => rw [UnpackedFloat.pack, unpack_packedInfinity]
  | zero s => rw [UnpackedFloat.pack, unpack_packedZero]
  | finite s m e hm =>
    rw [UnpackedFloat.pack]
    simp only
    split
    · rw [unpack_packedInfinity]
      rfl
    · next hlt =>
      split
      · refine isNaN_unpack_packComponents s ?_ _
        rw [BitVec.toNat_ofNat]
        exact Nat.lt_of_le_of_lt (Nat.mod_le _ _) (by omega)
      · exact isNaN_unpack_packComponents s (by decide) _

/-- An infinity is packed as it is. -/
theorem unpack_pack_of_isInf (h : a.isInf = true) :
    UnpackedFloat.unpack Format.binary64 (UnpackedFloat.pack Format.binary64 a) = a := by
  cases a with
  | notANumber | zero | finite => exact nomatch h
  | infinity s => rw [UnpackedFloat.pack, unpack_packedInfinity]

/-! ## Doubles -/

theorem isNaN_eq : x.isNaN = (unpacked x).isNaN := rfl

theorem isInf_eq : x.isInf = (unpacked x).isInf := rfl

theorem isFinite_eq : x.isFinite = (unpacked x).isFinite := rfl

/-- A double that is not finite is infinite or not a number. -/
theorem isFinite_eq_false_iff : x.isFinite = false ↔ x.isNaN = true ∨ x.isInf = true := by
  rw [isNaN_eq, isInf_eq, isFinite_eq]
  cases unpacked x <;> simp [isNaN, isInf, isFinite]

theorem isNaN_eq_false (h : x.isFinite = true) : x.isNaN = false :=
  Bool.eq_false_iff.mpr fun hnan =>
    Bool.false_ne_true ((isFinite_eq_false_iff.mpr (.inl hnan)).symm.trans h)

theorem isFinite_of_isInf (h : x.isInf = true) : ¬ x.isFinite = true :=
  Bool.eq_false_iff.mp (isFinite_eq_false_iff.mpr (.inr h))

theorem isNaN_of_isInf (h : x.isInf = true) : x.isNaN = false := by
  rw [isInf_eq] at h
  rw [isNaN_eq]
  cases hx : unpacked x <;> rw [hx] at h <;> first | rfl | exact nomatch h

/-- An infinity is told by what it stands for. -/
theorem eq_of_isInf (hx : x.isInf = true) (h : unpacked y = unpacked x) : y = x := by
  have hnan := isNaN_of_isInf hx
  exact eq_of_unpacked (by rwa [isNaN_eq, h, ← isNaN_eq]) hnan h

/-- A sum of doubles is the sum of what they stand for, packed. -/
theorem unpacked_add : unpacked (x + y)
    = UnpackedFloat.unpack Format.binary64 (UnpackedFloat.pack Format.binary64
      (UnpackedFloat.add Format.binary64 (unpacked x) (unpacked y))) :=
  rfl

theorem unpacked_sub : unpacked (x - y)
    = UnpackedFloat.unpack Format.binary64 (UnpackedFloat.pack Format.binary64
      (UnpackedFloat.sub Format.binary64 (unpacked x) (unpacked y))) :=
  rfl

theorem unpacked_mul : unpacked (x * y)
    = UnpackedFloat.unpack Format.binary64 (UnpackedFloat.pack Format.binary64
      (UnpackedFloat.mul Format.binary64 (unpacked x) (unpacked y))) :=
  rfl

theorem unpacked_div : unpacked (x / y)
    = UnpackedFloat.unpack Format.binary64 (UnpackedFloat.pack Format.binary64
      (UnpackedFloat.div Format.binary64 (unpacked x) (unpacked y))) :=
  rfl

theorem isNaN_add_eq :
    (x + y).isNaN = (UnpackedFloat.add Format.binary64 (unpacked x) (unpacked y)).isNaN := by
  rw [isNaN_eq, unpacked_add, isNaN_unpack_pack]

theorem isNaN_sub_eq :
    (x - y).isNaN = (UnpackedFloat.sub Format.binary64 (unpacked x) (unpacked y)).isNaN := by
  rw [isNaN_eq, unpacked_sub, isNaN_unpack_pack]

/-- A sum of doubles is a number unless a summand is none, or the summands are the two
infinities. -/
theorem isNaN_add : (x + y).isNaN = true
    ↔ x.isNaN = true ∨ y.isNaN = true ∨ x.isInf = true ∧ y.isInf = true ∧ x ≠ y := by
  rw [isNaN_add_eq, isNaN_add_unpacked]
  refine or_congr_right (or_congr_right (and_congr_right fun _ => and_congr_right fun hy => ?_))
  exact not_congr ⟨eq_of_isInf hy, congrArg unpacked⟩

/-- A difference of doubles is a number unless an operand is none, or both are one infinity. -/
theorem isNaN_sub : (x - y).isNaN = true
    ↔ x.isNaN = true ∨ y.isNaN = true ∨ x.isInf = true ∧ x = y := by
  rw [isNaN_sub_eq, isNaN_sub_unpacked]
  refine or_congr_right (or_congr_right (and_congr_right fun hx => ?_))
  exact ⟨fun h => (eq_of_isInf hx h.symm).symm, congrArg unpacked⟩

/-- A result that is packed from an infinity is that infinity. -/
theorem eq_of_packed (hx : x.isInf = true)
    (h : unpacked y = UnpackedFloat.unpack Format.binary64
      (UnpackedFloat.pack Format.binary64 (unpacked x))) : y = x :=
  eq_of_isInf hx (h.trans (unpack_pack_of_isInf (isInf_eq.symm.trans hx)))

/-- A sum with an infinity is that infinity, if it is a number. -/
theorem add_eq_left (hx : x.isInf = true) (h : (x + y).isNaN = false) : x + y = x := by
  rw [isNaN_add_eq] at h
  refine eq_of_packed hx ?_
  rw [unpacked_add, add_unpacked_left (isInf_eq.symm.trans hx) h]

theorem add_eq_right (hy : y.isInf = true) (h : (x + y).isNaN = false) : x + y = y := by
  rw [isNaN_add_eq] at h
  refine eq_of_packed hy ?_
  rw [unpacked_add, add_unpacked_right (isInf_eq.symm.trans hy) h]

/-- A difference from an infinity is that infinity, if it is a number. -/
theorem sub_eq_left (hx : x.isInf = true) (h : (x - y).isNaN = false) : x - y = x := by
  rw [isNaN_sub_eq] at h
  refine eq_of_packed hx ?_
  rw [unpacked_sub, sub_unpacked_left (isInf_eq.symm.trans hx) h]

/-- The summands of a finite sum are finite. -/
theorem isFinite_of_add (h : (x + y).isFinite = true) : x.isFinite = true ∧ y.isFinite = true := by
  have hnan := isNaN_eq_false h
  have hsummands := mt isNaN_add.mpr (by rw [hnan]; exact Bool.false_ne_true)
  constructor
  · by_contra hx
    rcases isFinite_eq_false_iff.mp (Bool.eq_false_iff.mpr hx) with hx | hx
    · exact hsummands (.inl hx)
    · exact isFinite_of_isInf hx (add_eq_left hx hnan ▸ h)
  · by_contra hy
    rcases isFinite_eq_false_iff.mp (Bool.eq_false_iff.mpr hy) with hy | hy
    · exact hsummands (.inr (.inl hy))
    · exact isFinite_of_isInf hy (add_eq_right hy hnan ▸ h)

/-- What something is taken from is finite if the difference is. -/
theorem isFinite_of_sub (h : (x - y).isFinite = true) : x.isFinite = true := by
  have hnan := isNaN_eq_false h
  by_contra hx
  rcases isFinite_eq_false_iff.mp (Bool.eq_false_iff.mpr hx) with hx | hx
  · exact Bool.false_ne_true (hnan.symm.trans (isNaN_sub.mpr (.inl hx)))
  · exact isFinite_of_isInf hx (sub_eq_left hx hnan ▸ h)

/-- A difference of numbers one of which is finite is a number. -/
theorem isNaN_sub_eq_false (hx : x.isNaN = false) (hy : y.isNaN = false)
    (h : x.isFinite = true ∨ y.isFinite = true) : (x - y).isNaN = false := by
  refine Bool.eq_false_iff.mpr fun hnan => ?_
  rcases isNaN_sub.mp hnan with hx' | hy' | ⟨hinf, rfl⟩
  · exact Bool.false_ne_true (hx.symm.trans hx')
  · exact Bool.false_ne_true (hy.symm.trans hy')
  · exact isFinite_of_isInf hinf (or_self_iff.mp h)

/-! ## Counts -/

/-- A shift to the right divides the mantissa by a power of two. -/
theorem mantissa_shiftRight (em : ExtendedMantissa) (k : Nat) :
    (em >>> k).mantissa = em.mantissa / 2 ^ k := by
  show (k.repeat ExtendedMantissa.shiftRightOne em).mantissa = _
  induction k with
  | zero => rw [Nat.repeat, Nat.pow_zero, Nat.div_one]
  | succ k ih =>
    show (k.repeat ExtendedMantissa.shiftRightOne em).mantissa / 2 = _
    rw [ih, Nat.div_div_eq_div_mul, ← Nat.pow_succ]

theorem mantissa_ofMantissaAndAccuracy (m : Nat) (accuracy : Accuracy) :
    (ExtendedMantissa.ofMantissaAndAccuracy m accuracy).mantissa = m := by
  unfold ExtendedMantissa.ofMantissaAndAccuracy
  split <;> rfl

/-- Rounding moves the mantissa up by one at most. -/
theorem roundedMantissa_bounds (em : ExtendedMantissa) :
    em.mantissa ≤ em.roundedMantissa ∧ em.roundedMantissa ≤ em.mantissa + 1 := by
  unfold ExtendedMantissa.roundedMantissa Accuracy.roundToNearestEven
  split <;> omega

/-- A mantissa that is long enough is cut to 53 bits. -/
theorem shiftToTargetExponent_eq {m : Nat} {e : Int} (hm : 2 ^ 52 ≤ m) (he : -1074 ≤ e)
    (accuracy : Accuracy) :
    ∃ em, shiftToTargetExponent Format.binary64 m e accuracy = (em, e + (m.log2 - 52 : Nat))
      ∧ em.mantissa = m / 2 ^ (m.log2 - 52) := by
  have hlog : 52 ≤ m.log2 := (Nat.le_log2 (by omega)).mpr hm
  have htarget : (Format.binary64.targetExponent (Float.Model.totalExponent m e) - e).toNat
      = m.log2 - 52 := by
    rw [Format.targetExponent, Float.Model.totalExponent,
      show (Format.binary64.mantissaBits : Int) = 53 from rfl,
      show Format.binary64.minExponent = -1074 from rfl]
    omega
  refine ⟨_, by rw [shiftToTargetExponent, shiftToExponent, htarget], ?_⟩
  rw [mantissa_shiftRight, mantissa_ofMantissaAndAccuracy]

/-- What is left of a mantissa that is cut has 53 bits. -/
theorem cut_bounds {m : Nat} (hm : 2 ^ 52 ≤ m) :
    2 ^ 52 ≤ m / 2 ^ (m.log2 - 52) ∧ m / 2 ^ (m.log2 - 52) < 2 ^ 53 := by
  have hlog : 52 ≤ m.log2 := (Nat.le_log2 (by omega)).mpr hm
  have hlow := Nat.log2_self_le (n := m) (by omega)
  have hhigh := Nat.lt_log2_self (n := m)
  constructor
  · rw [Nat.le_div_iff_mul_le (Nat.two_pow_pos _), ← Nat.pow_add]
    rwa [Nat.add_sub_cancel' hlog]
  · rw [Nat.div_lt_iff_lt_mul (Nat.two_pow_pos _), ← Nat.pow_add]
    rwa [show 53 + (m.log2 - 52) = m.log2 + 1 by omega]

/-- A number whose mantissa has 53 bits, and whose exponent a double has room for. -/
def IsNormal (a : UnpackedFloat) (low high : Int) : Prop :=
  ∃ s m e hm, a = .finite s m e hm ∧ 2 ^ 52 ≤ m ∧ m < 2 ^ 53 ∧ low ≤ e ∧ e ≤ high

/-- Rounding leaves 53 bits of a mantissa that has more. The second cut is for a mantissa that was
rounded up to 54 bits. -/
theorem isNormal_roundWithAccuracy (s : Sign) {m : Nat} {e : Int} (hm : 2 ^ 52 ≤ m)
    (he : -1074 ≤ e) (accuracy : Accuracy) :
    IsNormal (roundWithAccuracy Format.binary64 s m e accuracy) (e + (m.log2 - 52 : Nat))
      (e + (m.log2 - 52 : Nat) + 1) := by
  obtain ⟨em, hfirst, hmantissa⟩ := shiftToTargetExponent_eq hm he accuracy
  obtain ⟨hlow, hhigh⟩ := roundedMantissa_bounds em
  obtain ⟨hcut, hcut'⟩ := cut_bounds hm
  rw [← hmantissa] at hcut hcut'
  have hrounded : 2 ^ 52 ≤ em.roundedMantissa := by omega
  obtain ⟨em', hsecond, hmantissa'⟩ := shiftToTargetExponent_eq (e := e + (m.log2 - 52 : Nat))
    hrounded (by omega) .exact
  obtain ⟨hfinal, hfinal'⟩ := cut_bounds hrounded
  rw [← hmantissa'] at hfinal hfinal'
  have hlog : em.roundedMantissa.log2 - 52 ≤ 1 := by
    have := (Nat.log2_lt (n := em.roundedMantissa) (k := 54) (by omega)).mpr (by omega)
    omega
  unfold roundWithAccuracy
  rw [hfirst]
  simp only
  rw [hsecond]
  simp only
  rw [dif_neg (by omega)]
  exact ⟨s, _, _, _, rfl, hfinal, hfinal', by omega, by omega⟩

/-- A number with 53 bits is packed as it is. -/
theorem unpack_pack_of_isNormal (h : IsNormal a (-1074) 971) :
    UnpackedFloat.unpack Format.binary64 (UnpackedFloat.pack Format.binary64 a) = a := by
  obtain ⟨s, m, e, hpos, rfl, hm, hm', he, he'⟩ := h
  obtain ⟨mantissa, rfl⟩ : ∃ v : BitVec 52, m = (1#1 ++ v).toNat := by
    refine ⟨BitVec.ofNat 52 m, ?_⟩
    rw [BitVec.toNat_append, ← Nat.shiftLeft_add_eq_or_of_lt (BitVec.isLt _), BitVec.toNat_ofNat,
      Nat.shiftLeft_eq]
    simp only [BitVec.toNat_ofNat]
    omega
  obtain ⟨exponent, hexponent, rfl⟩ : ∃ v : BitVec 11,
      (0 < v.toNat ∧ v.toNat < 2047) ∧ e = (v.toNat : Int) - (1023 + (52 : Nat)) := by
    refine ⟨BitVec.ofNat 11 (e + 1075).toNat, ?_⟩
    rw [BitVec.toNat_ofNat, Nat.mod_eq_of_lt (by omega)]
    omega
  have hones : exponent ≠ -1#11 := fun h => by simp [h] at hexponent
  have hzero : exponent ≠ 0#11 := fun h => by simp [h] at hexponent
  rw [pack_normal s (by omega) hpos, UnpackedFloat.unpack]
  simp only [unpackExponent_packComponents, unpackMantissa_packComponents,
    unpackSign_packComponents, Sign.ofBitVec_toBitVec]
  rw [if_neg hones, if_neg hzero]
  rfl

/-- The double of one stands for one. -/
theorem unpacked_one :
    unpacked (Float.ofBits 0x3FF0000000000000) = .finite .positive (2 ^ 52) (-52) (by decide) :=
  rfl

/-- A power of two as a factor adds its exponent to the logarithm. -/
theorem log2_mul_two_pow {n : Nat} (hn : n ≠ 0) (k : Nat) : (n * 2 ^ k).log2 = n.log2 + k := by
  rw [Nat.log2_eq_iff (Nat.mul_ne_zero hn (Nat.two_pow_pos k).ne')]
  have hlow := Nat.log2_self_le hn
  have hhigh := Nat.lt_log2_self (n := n)
  rw [Nat.add_right_comm, Nat.pow_add, Nat.pow_add _ _ k]
  exact ⟨Nat.mul_le_mul_right _ hlow, Nat.mul_lt_mul_of_pos_right hhigh (Nat.two_pow_pos k)⟩

theorem IsNormal.mono {low high low' high' : Int} (h : IsNormal a low high) (hlow : low' ≤ low)
    (hhigh : high ≤ high') : IsNormal a low' high' := by
  obtain ⟨s, m, e, hpos, ha, hm, hm', he, he'⟩ := h
  exact ⟨s, m, e, hpos, ha, hm, hm', hlow.trans he, he'.trans hhigh⟩

/-- A count of at most 53 bits gets 53 of them. -/
theorem isNormal_ofNat {n : Nat} (hn : 0 < n) (h : n < 2 ^ 53) :
    IsNormal (UnpackedFloat.ofNat Format.binary64 n) (-52) 1 := by
  have hlog : n.log2 ≤ 52 := by
    have := (Nat.log2_lt (k := 53) hn.ne').mpr h
    omega
  have htarget : Format.binary64.targetExponent (Float.Model.totalExponent n 0)
      = (n.log2 : Int) - 52 := by
    rw [Format.targetExponent, Float.Model.totalExponent,
      show (Format.binary64.mantissaBits : Int) = 53 from rfl,
      show Format.binary64.minExponent = -1074 from rfl]
    omega
  have hshift : (0 - ((n.log2 : Int) - 52)).toNat = 52 - n.log2 := by omega
  have hshifted : (n * 2 ^ (52 - n.log2)).log2 = 52 := by
    rw [log2_mul_two_pow hn.ne']
    omega
  have hround : UnpackedFloat.ofNat Format.binary64 n
      = roundWithAccuracy Format.binary64 .positive (n * 2 ^ (52 - n.log2))
          (0 - (52 - n.log2 : Nat)) .exact := by
    have hcompare : compare (n : Int) 0 = .gt := Int.compare_eq_gt.mpr (by omega)
    rw [UnpackedFloat.ofNat, UnpackedFloat.ofInt, UnpackedFloat.normalize, hcompare]
    simp only [UnpackedFloat.round, Int.toNat_natCast, htarget, decreaseExponent, hshift,
      Nat.shiftLeft_eq]
  rw [hround]
  refine (isNormal_roundWithAccuracy .positive ?_ (by omega) .exact).mono ?_ ?_
  · have := Nat.log2_self_le (n := n * 2 ^ (52 - n.log2))
      (Nat.mul_ne_zero hn.ne' (Nat.two_pow_pos _).ne')
    rwa [hshifted] at this
  · omega
  · omega

/-- A count of at most 53 bits is converted to a double without rounding. -/
theorem unpacked_toFloat {n : Nat} (hn : 0 < n) (h : n < 2 ^ 53) :
    unpacked n.toUInt64.toFloat = UnpackedFloat.ofNat Format.binary64 n := by
  have htoNat : n.toUInt64.toNat = n := by
    rw [Nat.toUInt64_eq, UInt64.toNat_ofNat', Nat.mod_eq_of_lt (by omega)]
  show UnpackedFloat.unpack Format.binary64 (UnpackedFloat.pack Format.binary64
    (UnpackedFloat.ofNat Format.binary64 n.toUInt64.toNat)) = _
  rw [htoNat, unpack_pack_of_isNormal ((isNormal_ofNat hn h).mono (by decide) (by decide))]

/-- A count of more bits is cut to 53. -/
theorem isNormal_ofScientific {n : Nat} (hn : 2 ^ 53 ≤ n) (h : n < 2 ^ 64) :
    IsNormal (UnpackedFloat.ofScientific Format.binary64 n 0) (-53) 971 := by
  have hpos : n ≠ 0 := by omega
  have hlog : n.log2 < 64 := (Nat.log2_lt hpos).mpr h
  have hround : UnpackedFloat.ofScientific Format.binary64 n 0
      = roundWithAccuracy Format.binary64 .positive (n * 2 ^ 53) (-53) .exact := by
    have hbits : Format.binary64.mantissaBits = 53 := rfl
    have hexponent : (2 : Int) ^ Format.binary64.exponentBits = 2048 := rfl
    rw [UnpackedFloat.ofScientific, dif_neg hpos, hexponent, if_neg (by decide),
      if_neg (by omega), if_pos (by decide), UnpackedFloat.mul]
    simp only [hbits, Nat.shiftLeft_eq, Int.toNat_zero, Nat.pow_zero, Nat.mul_one, Int.add_zero]
    rfl
  rw [hround]
  refine (isNormal_roundWithAccuracy .positive (by omega) (by decide) .exact).mono ?_ ?_
  · omega
  · rw [log2_mul_two_pow hpos]
    omega

/-- The double of a positive count stands for a number other than zero. -/
theorem unpacked_ofNat {n : Nat} (hn : 0 < n) (h : n < 2 ^ 64) :
    ∃ s m e hm, unpacked (Float.ofNat n) = .finite s m e hm := by
  show ∃ s m e hm, unpacked (Float.ofScientific n false 0) = .finite s m e hm
  unfold Float.ofScientific
  split
  · next hsmall =>
    have hcount := isNormal_ofNat hn hsmall.1
    obtain ⟨s, m, e, hpos, hof, hm, hm', he, he'⟩ := hcount
    have hproduct := isNormal_roundWithAccuracy (s * .positive) (m := m * 2 ^ 52) (e := e + -52)
      (by omega) (by omega) .exact
    have hlog : m.log2 = 52 := (Nat.log2_eq_iff hpos.ne').mpr ⟨hm, hm'⟩
    rw [log2_mul_two_pow hpos.ne', hlog] at hproduct
    have hunpack := unpack_pack_of_isNormal (hproduct.mono (by omega) (by omega))
    obtain ⟨s', m', e', hpos', hround, -⟩ := hproduct
    refine ⟨s', m', e', hpos', ?_⟩
    rw [← hround, ← hunpack]
    show unpacked (n.toUInt64.toFloat * Float.ofBits 0x3FF0000000000000) = _
    rw [unpacked_mul, unpacked_toFloat hn hsmall.1, hof, unpacked_one]
    rfl
  · next hlarge =>
    have hcount := isNormal_ofScientific (n := n) (by omega) h
    have hunpack := unpack_pack_of_isNormal (hcount.mono (by decide) (by decide))
    obtain ⟨s, m, e, hpos, hof, -⟩ := hcount
    exact ⟨s, m, e, hpos, hof ▸ hunpack⟩

/-- A quotient by a positive count is a number if the dividend is. -/
theorem isNaN_div_ofNat {n : Nat} (hn : 0 < n) (h : n < 2 ^ 64) :
    (x / Float.ofNat n).isNaN = x.isNaN := by
  obtain ⟨s, m, e, hm, hcount⟩ := unpacked_ofNat hn h
  rw [isNaN_eq, unpacked_div, isNaN_unpack_pack, hcount, isNaN_div_unpacked, ← isNaN_eq]

end DerivedStats.Number
