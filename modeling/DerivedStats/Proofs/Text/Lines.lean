import DerivedStats.Source.Location
import DerivedStats.Text.Lines
import Mathlib.Data.List.Induction

/-!
# The line of a place

A place in a text is where the text is cut in two. The line feeds in front of the place count the
lines above its own, what stands behind the last of them is the start of its line, and the text in
front of the place is these lines, each with its line feed, and that start (`exists_lines_above`).
Of the lines that are shown it is the one with the same number, if it is shown at all
(`getElem?_shownLines`).
-/

namespace DerivedStats.Text

open Location (lastLine)

/-- The lines with their line feeds. -/
def withFeeds (lines : List (List Char)) : List Char := lines.flatMap (· ++ ['\n'])

theorem withFeeds_append (lines lines' : List (List Char)) :
    withFeeds (lines ++ lines') = withFeeds lines ++ withFeeds lines' :=
  List.flatMap_append

theorem lastLine_append_feed (front : List Char) : lastLine (front ++ ['\n']) = [] := by
  simp [lastLine]

/-- Any other character goes on with the last line. -/
theorem lastLine_append_of_ne {c : Char} (hc : c ≠ '\n') (front : List Char) :
    lastLine (front ++ [c]) = lastLine front ++ [c] := by
  simp [lastLine, hc]

/-- The text in front of a place: the lines above and the start of its own. -/
theorem exists_lines_above (front : List Char) : ∃ above,
    front = withFeeds above ++ lastLine front ∧ above.length = front.count '\n'
      ∧ ∀ (rest right : List Char) (below : List (List Char)), splitLines rest = right :: below →
        splitLines (front ++ rest) = above ++ (lastLine front ++ right) :: below := by
  induction front using List.reverseRecOn with
  | nil => exact ⟨[], rfl, rfl, fun _ _ _ h => h⟩
  | append_singleton front c ih =>
    obtain ⟨above, hfront, hlength, hsplit⟩ := ih
    by_cases hc : c = '\n'
    · subst hc
      refine ⟨above ++ [lastLine front], ?_, by simp [hlength], fun rest right below hrest => ?_⟩
      · rw [lastLine_append_feed, withFeeds_append, List.append_nil]
        conv_lhs => rw [hfront]
        simp [withFeeds]
      · have hfeed : splitLines ('\n' :: rest) = [] :: right :: below := by
          rw [splitLines, if_pos rfl, hrest]
        have hcut := hsplit _ _ _ hfeed
        rw [List.append_assoc, List.singleton_append, hcut, lastLine_append_feed]
        simp
    · refine ⟨above, ?_, by simp [hlength, hc], fun rest right below hrest => ?_⟩
      · rw [lastLine_append_of_ne hc, ← List.append_assoc, ← hfront]
      · have hchar : splitLines (c :: rest) = (c :: right) :: below := by
          rw [splitLines, if_neg hc, hrest]
        have hcut := hsplit _ _ _ hchar
        rw [List.append_assoc, List.singleton_append, hcut, lastLine_append_of_ne hc]
        simp

/-- The line with a number as it is shown: without its line end, and not at all if it is an empty
piece behind the last line feed. -/
theorem getElem?_shownLines {cs piece : List Char} {above below : List (List Char)}
    (h : splitLines cs = above ++ piece :: below) :
    (shownLines cs)[above.length]?
      = if below = [] then (if piece = [] then none else some piece)
        else some (stripReturn piece) := by
  unfold shownLines
  simp only
  rw [h]
  cases below using List.reverseRecOn with
  | nil =>
    rw [List.dropLast_concat, List.getLast?_concat]
    cases piece <;> simp
  | append_singleton below last =>
    have hbelow : below ++ [last] ≠ [] := by simp
    rw [if_neg hbelow, ← List.cons_append, ← List.append_assoc, List.dropLast_concat]
    simp

end DerivedStats.Text
