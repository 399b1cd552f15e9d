import DerivedStats.Proofs.Text.Lines
import Mathlib.Data.Prod.Lex

/-!
# Line and column

A place of a text is where the text can be cut in two, its start and its end included; the offset
of the place is the number of bytes in front of it. Line and column are compared by the lines first.
In this order they grow with each character that is passed: a line feed leads to the first column of
the next line, and any other character to the next column (`Location.behind_lt_concat`). So the
places of a text stand in the order of their lines and columns, no two places share both, and the
offset of a place can be found from them.

Main result: `Location.lineColumn_identifies`.
-/

namespace DerivedStats

namespace Text

/-- The bytes of a text are as many as its string has. -/
theorem byteLength_toList (s : String) : byteLength s.toList = s.utf8ByteSize := by
  induction s using String.push_induction with
  | empty => rfl
  | push s c ih => simp [ih]

/-- A text that is not empty has bytes. -/
theorem byteLength_pos_iff {cs : List Char} : 0 < byteLength cs ↔ cs ≠ [] := by
  cases cs with
  | nil => simp
  | cons c cs => exact iff_of_true (Nat.add_pos_left (Char.utf8Size_pos c) _) (List.cons_ne_nil c cs)

/-- A place cuts the text in two, with the bytes of its offset in front. -/
theorem exists_cut {source : String} (p : source.Pos) :
    ∃ front back, source.toList = front ++ back ∧ byteLength front = p.offset.byteIdx := by
  obtain ⟨front, back, hsource, hoffset⟩ :=
    String.Pos.Raw.isValid_iff_exists_append.mp p.isValid
  refine ⟨front.toList, back.toList, ?_, ?_⟩
  · rw [← String.toList_append, ← hsource]
  · rw [hoffset, byteLength_toList, String.byteIdx_rawEndPos]

end Text

namespace Location

/-- Line and column, compared by the lines first. -/
def lineColumn (l : Location) : Nat ×ₗ Nat := toLex (l.line, l.column)

/-- Line and column of the place behind a text. -/
def behind (front : List Char) : Nat ×ₗ Nat :=
  toLex (front.count '\n' + 1, (lastLine front).length + 1)

/-- Where a span starts, read off the text in front of it. -/
theorem ofSpan_eq {source : String} {front back : List Char} (h : source.toList = front ++ back)
    (stop : Nat) :
    ofSpan ⟨Text.byteLength front, stop⟩ source = {
      line := front.count '\n' + 1
      column := (lastLine front).length + 1
      offset := Text.byteLength front
      length := stop - Text.byteLength front } := by
  rw [ofSpan, h, before_byteLength]
  rfl

/-- The line and the column of a span are those behind the text in front of it. -/
theorem lineColumn_ofSpan {source : String} {front back : List Char}
    (h : source.toList = front ++ back) (stop : Nat) :
    (ofSpan ⟨Text.byteLength front, stop⟩ source).lineColumn = behind front := by
  rw [ofSpan_eq h]
  rfl

/-- A character leads to the next line, or to the next column of the same line. -/
theorem behind_lt_concat (front : List Char) (c : Char) : behind front < behind (front ++ [c]) := by
  rw [behind, behind, Prod.Lex.toLex_lt_toLex]
  by_cases hc : c = '\n'
  · left
    simp [hc]
  · right
    rw [Text.lastLine_append_of_ne hc]
    simp [hc]

/-- More text never leads back. -/
theorem behind_le_append (front more : List Char) : behind front ≤ behind (front ++ more) := by
  induction more using List.reverseRecOn with
  | nil => rw [List.append_nil]
  | append_singleton more c ih =>
    rw [← List.append_assoc]
    exact ih.trans (behind_lt_concat _ c).le

/-- More text leads on, if it is not empty. -/
theorem behind_lt_append_iff {front more : List Char} :
    behind front < behind (front ++ more) ↔ more ≠ [] := by
  cases more with
  | nil => simp
  | cons c more =>
    refine iff_of_true ?_ (List.cons_ne_nil c more)
    calc behind front < behind (front ++ [c]) := behind_lt_concat front c
      _ ≤ behind (front ++ [c] ++ more) := behind_le_append _ more
      _ = behind (front ++ c :: more) := by rw [List.append_assoc, List.singleton_append]

/-- Two places of one text stand in the order of their offsets. -/
theorem behind_lt_iff {front back front' back' : List Char}
    (h : front ++ back = front' ++ back') :
    behind front < behind front' ↔ Text.byteLength front < Text.byteLength front' := by
  -- one of the two places is reached from the other one
  rcases List.append_eq_append_iff.mp h with ⟨more, rfl, -⟩ | ⟨more, rfl, -⟩
  · rw [behind_lt_append_iff, Text.byteLength_append, Nat.lt_add_right_iff_pos,
      Text.byteLength_pos_iff]
  · refine iff_of_false (behind_le_append front' more).not_gt ?_
    rw [Text.byteLength_append]
    omega

/-- **Line and column identify the offset.** The line of a place is one of those that the text is
split into, and the first `column - 1` characters of it end at the offset of the place, with the
lines above in front of them. The places of the text stand in the order of their lines and columns.
-/
theorem lineColumn_identifies (source : String) :
    (∀ (p : source.Pos) (stop : Nat), ∃ above left right below,
      Text.splitLines source.toList = above ++ (left ++ right) :: below
        ∧ (ofSpan ⟨p.offset.byteIdx, stop⟩ source).line = above.length + 1
        ∧ (ofSpan ⟨p.offset.byteIdx, stop⟩ source).column = left.length + 1
        ∧ Text.byteLength (Text.withFeeds above ++ left) = p.offset.byteIdx)
    ∧ ∀ (p q : source.Pos) (stop stop' : Nat),
      (ofSpan ⟨p.offset.byteIdx, stop⟩ source).lineColumn
        < (ofSpan ⟨q.offset.byteIdx, stop'⟩ source).lineColumn ↔ p < q := by
  constructor
  · intro p stop
    obtain ⟨front, back, hsource, hoffset⟩ := Text.exists_cut p
    obtain ⟨above, hfront, hlength, hsplit⟩ := Text.exists_lines_above front
    obtain ⟨right, below, hright⟩ := List.exists_cons_of_ne_nil (Text.splitLines_ne_nil back)
    refine ⟨above, lastLine front, right, below, ?_, ?_, ?_, ?_⟩
    · rw [hsource, hsplit back right below hright]
    · rw [← hoffset, ofSpan_eq hsource, hlength]
    · rw [← hoffset, ofSpan_eq hsource]
    · rw [← hfront, hoffset]
  · intro p q stop stop'
    obtain ⟨front, back, hsource, hp⟩ := Text.exists_cut p
    obtain ⟨front', back', hsource', hq⟩ := Text.exists_cut q
    rw [← hp, ← hq, lineColumn_ofSpan hsource, lineColumn_ofSpan hsource',
      behind_lt_iff (hsource.symm.trans hsource'), hp, hq, String.Pos.lt_iff,
      String.Pos.Raw.lt_iff]

/-- Columns count characters: the second line starts at byte 3. -/
example : ofSpan ⟨5, 6⟩ "é\nàb" = ⟨2, 2, 5, 1⟩ := by decide

end Location

end DerivedStats
