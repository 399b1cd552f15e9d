import DerivedStats.Text.Utf8

/-!
# The order of UTF-8 forms

Texts are compared character by character, and characters by their numbers. This is also the order
of the UTF-8 forms, compared byte by byte (`compare_bytes`): where two texts have different
characters, the forms of these differ at a place that both have, and the form of the lesser
character has the lesser byte there (`precedes_encode`).
-/

namespace DerivedStats.Text

/-- The UTF-8 form of a text. -/
def bytes (cs : List Char) : List UInt8 := cs.flatMap String.utf8EncodeChar

theorem bytes_append (cs ds : List Char) : bytes (cs ++ ds) = bytes cs ++ bytes ds :=
  List.flatMap_append

/-- The lists differ at a place that both have, and the first one has the lesser byte there. -/
def Precedes : List UInt8 → List UInt8 → Prop
  | x :: xs, y :: ys => x.toNat < y.toNat ∨ x.toNat = y.toNat ∧ Precedes xs ys
  | _, _ => False

/-- What stands behind the first difference does not matter. -/
theorem Precedes.compare_append {xs ys : List UInt8} (h : Precedes xs ys) (us vs : List UInt8) :
    compare (xs ++ us) (ys ++ vs) = .lt := by
  induction xs generalizing ys with
  | nil => exact h.elim
  | cons x xs ih =>
    cases ys with
    | nil => exact h.elim
    | cons y ys =>
      rw [List.cons_append, List.cons_append, List.compare_cons_cons]
      rcases h with hlt | ⟨heq, hmore⟩
      · have hlt : compare x y = .lt := compareOfLessAndEq_eq_lt.mpr (UInt8.lt_iff_toNat_lt.mpr hlt)
        rw [hlt]
        rfl
      · obtain rfl : x = y := UInt8.toNat_inj.mp heq
        rw [Std.ReflOrd.compare_self, ih hmore]
        rfl

/-- A common front does not matter. -/
theorem compare_append_left (xs us vs : List UInt8) :
    compare (xs ++ us) (xs ++ vs) = compare us vs := by
  induction xs with
  | nil => rfl
  | cons x xs ih =>
    rw [List.cons_append, List.cons_append, List.compare_cons_cons, Std.ReflOrd.compare_self, ih]
    rfl

/-- The form of a lesser character comes first. -/
theorem precedes_encode {c d : Char} (h : c < d) :
    Precedes (String.utf8EncodeChar c) (String.utf8EncodeChar d) := by
  have hlt : c.val.toNat < d.val.toNat := h
  have hmax : d.val.toNat < 0x110000 := by
    rcases d.valid with h | h
    · exact Nat.lt_trans h (by decide)
    · exact h.2
  -- a form holds the digits to the base 64, and of two numbers the first different digit decides
  have hdigit : ∀ m n : Nat, m < n → m / 64 < n / 64 ∨ m / 64 = n / 64 ∧ m % 64 < n % 64 := by
    omega
  have hsecond : ∀ n, n / 4096 = n / 64 / 64 := by omega
  have hthird : ∀ n, n / 262144 = n / 64 / 64 / 64 := by omega
  unfold String.utf8EncodeChar
  generalize c.val.toNat = m at hlt
  generalize d.val.toNat = n at hlt hmax
  have h₁ := hdigit m n hlt
  have h₂ := hdigit (m / 64) (n / 64)
  have h₃ := hdigit (m / 64 / 64) (n / 64 / 64)
  simp only [hsecond, hthird]
  -- one case for each pair of lengths; a longer form has the greater first byte
  repeat' split
  all_goals
    simp only [Precedes, UInt8.toNat_ofNat']
    omega

/-- The bytes of a lesser text are less. -/
theorem compare_bytes_lt {cs ds : List Char} (h : cs < ds) :
    compare (bytes cs) (bytes ds) = .lt := by
  induction cs generalizing ds with
  | nil =>
    cases ds with
    | nil => exact absurd h (List.lt_irrefl _)
    | cons d ds =>
      obtain ⟨x, xs, hbytes⟩ : ∃ x xs, bytes (d :: ds) = x :: xs :=
        List.exists_cons_of_ne_nil
          (List.append_ne_nil_of_left_ne_nil String.utf8EncodeChar_ne_nil _)
      rw [hbytes]
      rfl
  | cons c cs ih =>
    cases ds with
    | nil => exact absurd h (List.not_lt_nil _)
    | cons d ds =>
      show compare (String.utf8EncodeChar c ++ bytes cs) (String.utf8EncodeChar d ++ bytes ds) = .lt
      rcases List.cons_lt_cons_iff.mp h with hlt | ⟨rfl, hmore⟩
      · exact (precedes_encode hlt).compare_append _ _
      · rw [compare_append_left, ih hmore]

/-- **UTF-8 forms stand in the order of their texts.** -/
theorem compare_bytes (s t : String) :
    compare (bytes s.toList) (bytes t.toList) = compare s t := by
  cases hst : compare s t with
  | lt => exact compare_bytes_lt (String.lt_iff.mp (compareOfLessAndEq_eq_lt.mp hst))
  | eq =>
    obtain rfl := Std.LawfulEqOrd.eq_of_compare hst
    exact Std.ReflOrd.compare_self
  | gt =>
    have hts : compare t s = .lt := Std.OrientedCmp.gt_iff_lt.mp hst
    rw [Std.OrientedOrd.eq_swap,
      compare_bytes_lt (String.lt_iff.mp (compareOfLessAndEq_eq_lt.mp hts))]
    rfl

end DerivedStats.Text
