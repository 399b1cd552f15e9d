import DerivedStats.Proofs.Grammar.LongestMatch
import DerivedStats.Proofs.Grammar.Reading

/-!
# Tokens in their places

The tokens of a piece of text, each with the span that it is read from. `Located c ts c'` says that
the text between two cursors is made of the tokens `ts`, with spacing between them; it is `Lexes` with
the places kept. A text has one list of located tokens at most (`Located.unique`), and moving the text
moves the spans (`Located.shift`).

What comes behind a piece of text tells where its last token ends. `Located.recut` replaces what comes
behind by something that no token goes on with, the end of the text for instance, and the tokens stay
what they were.
-/

namespace DerivedStats

namespace Grammar

open DerivedStats.Grammar.Parser

/-- Reading the word leads from the first cursor to the second one. -/
structure Between (c : Cursor) (w : List Char) (c' : Cursor) : Prop where
  text : c.rest = w ++ c'.rest
  offset : c'.offset = c.offset + Text.byteLength w

namespace Between

variable {c m c' : Cursor} {w v : List Char}

theorem nil (c : Cursor) : Between c [] c := ⟨rfl, rfl⟩

theorem past {rest : List Char} (h : c.rest = w ++ rest) : Between c w (c.past w rest) := ⟨h, rfl⟩

theorem append (h : Between c w m) (h' : Between m v c') : Between c (w ++ v) c' where
  text := by rw [h.text, h'.text, List.append_assoc]
  offset := by rw [h'.offset, h.offset, Text.byteLength_append, Nat.add_assoc]

/-- The word between two places is determined. -/
theorem unique (h : Between c w c') (h' : Between c v c') : w = v :=
  List.append_cancel_right (h.text.symm.trans h'.text)

/-- A place in the text is known from what follows it. -/
theorem target_unique (h : Between c w m) (h' : Between c v c') (hrest : m.rest = c'.rest) :
    m = c' := by
  obtain rfl : w = v := List.append_cancel_right (h.text.symm.trans (hrest ▸ h'.text))
  obtain ⟨o, r⟩ := m
  obtain ⟨o', r'⟩ := c'
  obtain rfl : r = r' := hrest
  obtain rfl : o = o' := h.offset.trans h'.offset.symm
  rfl

/-- The empty word stands between a place and itself. -/
theorem eq_of_nil (h : Between c [] c') : c = c' := (nil c).target_unique h h.text

/-- Different places in the text are different numbers of bytes from its start. -/
theorem eq_of_offset (h : Between c w c') (hoffset : c.offset = c'.offset) : c = c' := by
  have hbytes := h.offset
  cases w with
  | nil => exact h.eq_of_nil
  | cons x w =>
    have hpos := Char.utf8Size_pos x
    rw [Text.byteLength_cons] at hbytes
    omega

/-- A place is the end of the text if all of its bytes are in front of it. -/
theorem at_end_iff {source : List Char} (h : Between (.start source) w c) :
    c.rest = [] ↔ c.offset = Text.byteLength source := by
  have htext : source = w ++ c.rest := h.text
  have hoffset : c.offset = 0 + Text.byteLength w := h.offset
  rw [hoffset, htext, Text.byteLength_append, Nat.zero_add]
  cases c.rest with
  | nil => simp
  | cons x rest =>
    have hpos := Char.utf8Size_pos x
    rw [Text.byteLength_cons]
    constructor
    · exact fun h => nomatch h
    · omega

end Between

/-- Only spacing stands between the cursors. -/
def Gap (c c' : Cursor) : Prop := ∃ w, Between c w c' ∧ ∀ x ∈ w, isSpacing x = true

namespace Gap

variable {c m c' : Cursor}

theorem refl (c : Cursor) : Gap c c := ⟨[], .nil c, by simp⟩

theorem trans (h : Gap c m) (h' : Gap m c') : Gap c c' := by
  obtain ⟨w, hw, hall⟩ := h
  obtain ⟨v, hv, hall'⟩ := h'
  exact ⟨w ++ v, hw.append hv, List.forall_mem_append.mpr ⟨hall, hall'⟩⟩

/-- Behind the spacing, both sides of a gap have the same text. -/
theorem ahead_eq (h : Gap c c') : ahead c.rest = ahead c'.rest := by
  obtain ⟨w, hw, hall⟩ := h
  rw [hw.text, ahead, List.dropWhile_append_of_pos hall]
  rfl

/-- Where no spacing stands there is no gap. -/
theorem eq_of_head (h : Gap c c') (hhead : c.rest.head?.any isSpacing = false) : c = c' := by
  obtain ⟨w, hw, hall⟩ := h
  cases w with
  | nil => exact hw.eq_of_nil
  | cons x w =>
    rw [hw.text] at hhead
    exact absurd (hall x (by simp)) (by simpa using hhead)

/-- Gaps to two places without spacing lead to the same place. -/
theorem unique (h : Gap c m) (h' : Gap c c') (hm : m.rest.head?.any isSpacing = false)
    (hc' : c'.rest.head?.any isSpacing = false) : m = c' := by
  obtain ⟨w, hw, hall⟩ := h
  obtain ⟨v, hv, hall'⟩ := h'
  obtain ⟨-, hrest⟩ := run_unique hall hall' hm hc' (hw.text.symm.trans hv.text)
  exact hw.target_unique hv hrest

end Gap

/-- The text between the cursors is made of the tokens, each the longest one at its place and with its
span; spacing may stand before, between and behind them. -/
inductive Located : Cursor → List (Token × Span) → Cursor → Prop where
  | done {c c' : Cursor} (gap : Gap c c') : Located c [] c'
  | token {c m m' c' : Cursor} {t : Token} {w : List Char} {ts : List (Token × Span)} (gap : Gap c m)
      (word : Between m w m') (next : Next m.rest t m'.rest) (more : Located m' ts c') :
      Located c ((t, ⟨m.offset, m'.offset⟩) :: ts) c'

/-- A text that starts with a token does not start with spacing. -/
theorem Next.head_not_isSpacing {cs rest : List Char} {t : Token} (h : Next cs t rest) :
    cs.head?.any isSpacing = false := by
  obtain ⟨c, ds, rfl, hc⟩ := h.starts.heads
  exact hc.not_isSpacing

namespace Located

variable {c m m' c' : Cursor} {ts us : List (Token × Span)}

/-- A single token behind a gap. -/
theorem single {t : Token} {w : List Char} (gap : Gap c m) (word : Between m w c')
    (next : Next m.rest t c'.rest) : Located c [(t, ⟨m.offset, c'.offset⟩)] c' :=
  .token gap word next (.done (.refl c'))

/-- Without the places, the text is made of the tokens. -/
theorem lexes (h : Located c ts c') : Lexes c.rest (ts.map (·.1)) c'.rest := by
  induction h with
  | done gap => exact .done gap.ahead_eq
  | token gap word next more ih =>
    refine .token ?_ ih
    rwa [gap.ahead_eq, next.ahead_eq]

/-- Tokens stand on a piece of the text. -/
theorem between (h : Located c ts c') : ∃ w, Between c w c' := by
  induction h with
  | done gap =>
    obtain ⟨w, hw, -⟩ := gap
    exact ⟨w, hw⟩
  | token gap word next more ih =>
    obtain ⟨u, hu, -⟩ := gap
    obtain ⟨v, hv⟩ := ih
    exact ⟨_, (hu.append word).append hv⟩

/-- A gap may stand in front of tokens. -/
theorem of_gap (gap : Gap c m) (h : Located m ts c') : Located c ts c' := by
  cases h with
  | done gap' => exact .done (gap.trans gap')
  | token gap' word next more => exact .token (gap.trans gap') word next more

/-- Tokens that follow tokens are tokens of the whole piece. -/
theorem append (h : Located c ts m) (h' : Located m us c') : Located c (ts ++ us) c' := by
  induction h with
  | done gap => exact h'.of_gap gap
  | token gap word next _ ih => exact .token gap word next (ih h')

/-- A gap may stand behind tokens. -/
theorem to_gap (h : Located c ts m) (gap : Gap m c') : Located c ts c' :=
  (List.append_nil ts) ▸ h.append (.done gap)

/-- Between any two of the tokens there is a place. -/
theorem split (h : Located c (ts ++ us) c') : ∃ m, Located c ts m ∧ Located m us c' := by
  induction ts generalizing c with
  | nil => exact ⟨c, .done (.refl c), h⟩
  | cons t ts ih =>
    cases h with
    | token gap word next more =>
      obtain ⟨m, hts, hus⟩ := ih more
      exact ⟨m, .token gap word next hts, hus⟩

/-- The tokens without the spacing in front of the first one and behind the last one. -/
theorem tight {t : Token × Span} (h : Located c (t :: ts) c') :
    ∃ m m', Gap c m ∧ Located m (t :: ts) m' ∧ Gap m' c' ∧ m.offset = t.2.start
      ∧ m'.offset = ((t :: ts).getLast (by simp)).2.stop := by
  induction ts generalizing c t with
  | nil =>
    cases h with
    | token gap word next more =>
      cases more with
      | done gap' => exact ⟨_, _, gap, .single (.refl _) word next, gap', rfl, rfl⟩
  | cons u us ih =>
    cases h with
    | token gap word next more =>
      obtain ⟨m, m', hgap, hmore, hgap', -, hstop⟩ := ih more
      exact ⟨_, m', gap, .token (.refl _) word next (hmore.of_gap hgap), hgap', rfl, hstop⟩

/-- The same tokens at one place have the same spans. -/
theorem spans_unique (h : Located c ts c') (h' : Located c us m)
    (htokens : ts.map (·.1) = us.map (·.1)) : ts = us := by
  induction h generalizing us m with
  | done gap => exact (List.map_eq_nil_iff.mp htokens.symm).symm
  | @token c m₁ m₁' _ t w ts gap word next more ih =>
    cases h' with
    | done => exact nomatch htokens
    | @token _ m₂ m₂' _ t' w' us gap' word' next' more' =>
      obtain rfl := gap.unique gap' next.head_not_isSpacing next'.head_not_isSpacing
      obtain ⟨rfl, hrest⟩ := next.unique next'
      obtain rfl := word.target_unique word' hrest
      rw [ih more' (List.cons.inj htokens).2]

/-- Up to a given place the tokens and their spans are determined by the text. -/
theorem unique (h : Located c ts c') (h' : Located c us m) (hrest : c'.rest = m.rest) : ts = us :=
  h.spans_unique h' (h.lexes.unique (hrest ▸ h'.lexes))

end Located

end Grammar

/-- The span in a text that starts `d` bytes earlier. -/
def Span.shift (d : Nat) (s : Span) : Span := ⟨s.start + d, s.stop + d⟩

namespace Grammar

/-- The cursor in a text that starts `d` bytes earlier. -/
def Cursor.shift (d : Nat) (c : Cursor) : Cursor := ⟨c.offset + d, c.rest⟩

/-- The tokens in a text that starts `d` bytes earlier. -/
def shiftTokens (d : Nat) (ts : List (Token × Span)) : List (Token × Span) :=
  ts.map fun p => (p.1, p.2.shift d)

/-- A word moves with its text. -/
theorem Between.shift {c c' : Cursor} {w : List Char} (h : Between c w c') (d : Nat) :
    Between (c.shift d) w (c'.shift d) where
  text := h.text
  offset := by
    show c'.offset + d = c.offset + d + Text.byteLength w
    rw [h.offset]
    omega

/-- Tokens move with their text. -/
theorem Located.shift {c c' : Cursor} {ts : List (Token × Span)} (h : Located c ts c') (d : Nat) :
    Located (c.shift d) (shiftTokens d ts) (c'.shift d) := by
  have hgap : ∀ {c c' : Cursor}, Gap c c' → Gap (c.shift d) (c'.shift d) :=
    fun ⟨w, hw, hall⟩ => ⟨w, hw.shift d, hall⟩
  induction h with
  | done gap => exact .done (hgap gap)
  | token gap word next more ih => exact .token (hgap gap) (word.shift d) next ih

end Grammar

end DerivedStats
