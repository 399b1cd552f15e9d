import DerivedStats.Proofs.Number.Bits

/-!
# The order of doubles

Doubles other than `nan` are ordered like the numbers that they stand for, and the two zeros stand
for one number. `rank` is that number in a form that a linear order is known of: the sign and the
size first, then the exponent, then the mantissa. The comparisons of doubles are those of the ranks
(`le_iff_rank`, `lt_iff_rank`), and two doubles of one rank are the same or the two zeros
(`eq_or_zeros`).
-/

namespace DerivedStats.Number

open Float.Model Float.Model.UnpackedFloat

/-- The place of a number in the order: its sign, with the infinities at the ends, then its exponent
and its mantissa, which count the other way below zero. -/
def rank : UnpackedFloat → ℤ ×ₗ ℤ ×ₗ ℤ
  | .infinity .negative => toLex (-2, toLex (0, 0))
  | .finite .negative m e _ => toLex (-1, toLex (-e, -(m : ℤ)))
  | .zero _ | .notANumber => toLex (0, toLex (0, 0))
  | .finite .positive m e _ => toLex (1, toLex (e, (m : ℤ)))
  | .infinity .positive => toLex (2, toLex (0, 0))

/-- Pairs compare by their first parts, and by the second ones if these are equal. -/
theorem compare_toLex {α β : Type} [LinearOrder α] [LinearOrder β] (a c : α) (b d : β) :
    compare (toLex (a, b)) (toLex (c, d)) = (compare a c).then (compare b d) := by
  rw [Prod.Lex.compare_def]
  rfl

theorem compare_neg (a b : ℤ) : compare (-a) (-b) = (compare a b).swap := by
  have hanti : StrictAnti fun z : ℤ => -z := fun _ _ => neg_lt_neg
  rw [← cmp_eq_compare, ← cmp_eq_compare, cmp_swap]
  exact hanti.cmp_map_eq a b

theorem compare_natCast (a b : ℕ) : compare (a : ℤ) (b : ℤ) = compare a b := by
  rw [← cmp_eq_compare, ← cmp_eq_compare]
  exact Nat.strictMono_cast.cmp_map_eq a b

/-- Numbers compare like their ranks. -/
theorem compare_rank {a b : UnpackedFloat} (ha : a.isNaN = false) (hb : b.isNaN = false) :
    a.compare b = some (compare (rank a) (rank b)) := by
  cases a with
  | notANumber => exact absurd ha (by decide)
  | infinity s =>
    cases b with
    | notANumber => exact absurd hb (by decide)
    | infinity t | zero t | finite t => cases s <;> cases t <;> rfl
  | zero s =>
    cases b with
    | notANumber => exact absurd hb (by decide)
    | infinity t | finite t => cases t <;> rfl
    | zero t => rfl
  | finite s m e hm =>
    cases b with
    | notANumber => exact absurd hb (by decide)
    | infinity t | zero t => cases s <;> cases t <;> rfl
    | finite t m' e' hm' =>
      cases s <;> cases t
      · simp [UnpackedFloat.compare, rank, compare_toLex, Ordering.swap_then, compare_neg,
          compare_natCast]
      · rfl
      · rfl
      · simp [UnpackedFloat.compare, rank, compare_toLex, compare_natCast]

/-- Numbers of one rank differ at most in the sign of a zero. -/
theorem eq_of_rank {a b : UnpackedFloat} (ha : a.isNaN = false) (hb : b.isNaN = false)
    (h : rank a = rank b) : a = b ∨ ∃ s t, a = .zero s ∧ b = .zero t := by
  cases a with
  | notANumber => exact absurd ha (by decide)
  | infinity s =>
    cases b with
    | notANumber => exact absurd hb (by decide)
    | infinity t | zero t | finite t => cases s <;> cases t <;> simp [rank] at h ⊢
  | zero s =>
    cases b with
    | notANumber => exact absurd hb (by decide)
    | infinity t | finite t => cases t <;> simp [rank] at h
    | zero t => exact .inr ⟨s, t, rfl, rfl⟩
  | finite s m e hm =>
    cases b with
    | notANumber => exact absurd hb (by decide)
    | infinity t | zero t => cases s <;> cases t <;> simp [rank] at h
    | finite t m' e' hm' => cases s <;> cases t <;> simp_all [rank]

/-- The number that a double stands for. -/
def unpacked (x : Float) : UnpackedFloat := UnpackedFloat.unpack Format.binary64 x.toBits.toBitVec

variable {x y : Float}

theorem compare_unpacked (hx : x.isNaN = false) (hy : y.isNaN = false) :
    (unpacked x).compare (unpacked y) = some (compare (rank (unpacked x)) (rank (unpacked y))) :=
  compare_rank hx hy

/-- What a number stands for tells its bits. -/
theorem toBits_eq_pack (hx : x.isNaN = false) :
    x.toBits.toBitVec = UnpackedFloat.pack Format.binary64 (unpacked x) := by
  have hnumeric : IsNumeric x.toBits.toBitVec := by
    have hnan := isNaN_iff (x := x)
    rw [hx] at hnan
    exact Nat.not_lt.mp fun hlt => absurd (hnan.mpr hlt) (by simp)
  rw [unpacked, ← withSign_unpackSign, pack_withSign_unpack hnumeric, packComponents_parts]

/-- Doubles that stand for the same number are the same. -/
theorem eq_of_unpacked (hx : x.isNaN = false) (hy : y.isNaN = false)
    (h : unpacked x = unpacked y) : x = y := by
  refine eq_of_toBits (UInt64.toBitVec_inj.mp ?_)
  rw [toBits_eq_pack hx, toBits_eq_pack hy, h]

/-- There are two doubles that stand for zero. -/
theorem eq_zero_of_unpacked {s : Sign} (hx : x.isNaN = false) (h : unpacked x = .zero s) :
    x = 0.0 ∨ x = -0.0 := by
  cases s with
  | positive => exact .inl (eq_of_unpacked hx rfl (h.trans rfl))
  | negative => exact .inr (eq_of_unpacked hx rfl (h.trans rfl))

/-- Numbers are ordered like their ranks. -/
theorem le_iff_rank (hx : x.isNaN = false) (hy : y.isNaN = false) :
    x ≤ y ↔ rank (unpacked x) ≤ rank (unpacked y) := by
  show decide ((unpacked x).le (unpacked y) = true) = true ↔ _
  rw [decide_eq_true_eq, UnpackedFloat.le, compare_unpacked hx hy, Option.any_some,
    ← compare_le_iff_le]
  exact Ordering.isLE_iff_ne_gt

theorem lt_iff_rank (hx : x.isNaN = false) (hy : y.isNaN = false) :
    x < y ↔ rank (unpacked x) < rank (unpacked y) := by
  show decide ((unpacked x).lt (unpacked y) = true) = true ↔ _
  rw [decide_eq_true_eq, UnpackedFloat.lt, compare_unpacked hx hy, beq_iff_eq, Option.some_inj,
    compare_lt_iff_lt]

/-- Two numbers neither of which is the greater are the same, or they are the two zeros. -/
theorem eq_or_zeros (hx : x.isNaN = false) (hy : y.isNaN = false) (hxy : x ≤ y) (hyx : y ≤ x) :
    x = y ∨ (x = 0.0 ∨ x = -0.0) ∧ (y = 0.0 ∨ y = -0.0) := by
  rw [le_iff_rank hx hy] at hxy
  rw [le_iff_rank hy hx] at hyx
  rcases eq_of_rank hx hy (le_antisymm hxy hyx) with h | ⟨s, t, hs, ht⟩
  · exact .inl (eq_of_unpacked hx hy h)
  · exact .inr ⟨eq_zero_of_unpacked hx hs, eq_zero_of_unpacked hy ht⟩

end DerivedStats.Number
