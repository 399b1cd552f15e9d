/-!
# Text measured in bytes

Positions in a source text are byte offsets of its UTF-8 form, while the text itself is handled as
a list of characters. This file cuts a character list at a byte offset. There is a cut at each
character boundary: behind a text that was joined to another one the two come apart again
(`takeBytes?_append`, `dropBytes?_append`).
-/

namespace DerivedStats.Text

/-- The number of bytes of the UTF-8 form of a text. -/
def byteLength : List Char → Nat
  | [] => 0
  | c :: cs => c.utf8Size + byteLength cs

@[simp] theorem byteLength_nil : byteLength [] = 0 := rfl

@[simp] theorem byteLength_cons (c : Char) (cs : List Char) :
    byteLength (c :: cs) = c.utf8Size + byteLength cs := rfl

@[simp] theorem byteLength_append (xs ys : List Char) :
    byteLength (xs ++ ys) = byteLength xs + byteLength ys := by
  induction xs with
  | nil => simp
  | cons c cs ih => simp [ih, Nat.add_assoc]

/-- The first characters of a text that make up exactly `n` bytes; `none` past the end and inside a
character. -/
def takeBytes? : Nat → List Char → Option (List Char)
  | 0, _ => some []
  | _ + 1, [] => none
  | n + 1, c :: cs =>
    if c.utf8Size ≤ n + 1 then (takeBytes? (n + 1 - c.utf8Size) cs).map (c :: ·) else none

/-- What follows the first `n` bytes of a text; `none` past the end and inside a character. -/
def dropBytes? : Nat → List Char → Option (List Char)
  | 0, cs => some cs
  | _ + 1, [] => none
  | n + 1, c :: cs =>
    if c.utf8Size ≤ n + 1 then dropBytes? (n + 1 - c.utf8Size) cs else none

/-- The text from byte `start` up to byte `stop`, if both are character boundaries in this order. -/
def slice? (start stop : Nat) (cs : List Char) : Option (List Char) :=
  if start ≤ stop then (dropBytes? start cs).bind (takeBytes? (stop - start)) else none

/-- The bytes of a front part are taken as this part. -/
theorem takeBytes?_append (xs ys : List Char) :
    takeBytes? (byteLength xs) (xs ++ ys) = some xs := by
  induction xs with
  | nil => cases ys <;> rfl
  | cons c cs ih =>
    obtain ⟨n, hn⟩ := Nat.exists_eq_add_of_lt (Char.utf8Size_pos c)
    have hstep : byteLength (c :: cs) = (n + byteLength cs) + 1 := by
      rw [byteLength_cons, hn]; omega
    rw [hstep, List.cons_append, takeBytes?, if_pos (by omega)]
    rw [show n + byteLength cs + 1 - c.utf8Size = byteLength cs by omega, ih]
    rfl

/-- Behind the bytes of a front part the rest is left. -/
theorem dropBytes?_append (xs ys : List Char) :
    dropBytes? (byteLength xs) (xs ++ ys) = some ys := by
  induction xs with
  | nil => cases ys <;> rfl
  | cons c cs ih =>
    obtain ⟨n, hn⟩ := Nat.exists_eq_add_of_lt (Char.utf8Size_pos c)
    have hstep : byteLength (c :: cs) = (n + byteLength cs) + 1 := by
      rw [byteLength_cons, hn]; omega
    rw [hstep, List.cons_append, dropBytes?, if_pos (by omega)]
    rw [show n + byteLength cs + 1 - c.utf8Size = byteLength cs by omega, ih]

/-- Between two cuts stands what was joined there. -/
theorem slice?_append (xs ys zs : List Char) :
    slice? (byteLength xs) (byteLength xs + byteLength ys) (xs ++ (ys ++ zs)) = some ys := by
  rw [slice?, if_pos (Nat.le_add_right _ _), dropBytes?_append, Option.bind_some,
    Nat.add_sub_cancel_left, takeBytes?_append]

end DerivedStats.Text
