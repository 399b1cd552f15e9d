import DerivedStats.Proofs.Grammar.Offence
import DerivedStats.Proofs.Text.Lines

/-!
# Excerpts

What a rendered diagnostic quotes of a refused text. A fault stands at a place of the text
(`Grammar.readText_place`): a stray character is one that the check of the characters came across,
and the parser fails where it stands. The excerpt shows the line of this place, and blanks and
carets below it that lead to the column of the place and go on for each byte of what stands there.
So the carets cover it if its characters have one byte each; and there is no excerpt if the place is
behind the last line feed of the text, with nothing more to come.

Main result: `Assignment.render_points_iff`.
-/

namespace DerivedStats

namespace Grammar

/-! ## Where a fault stands -/

theorem utf8Size_of_le {c d : Char} (hd : d.val ≤ 127) (h : c ≤ d) : c.utf8Size = 1 :=
  Char.utf8Size_eq_one_iff.mpr (UInt32.le_trans (Char.le_def.mp h) hd)

/-- The characters of names and values have one byte each. -/
theorem utf8Size_of_isValueChar {c : Char} (h : isValueChar c = true) : c.utf8Size = 1 := by
  simp only [isValueChar, isNameChar, isNameStart, isLetter, isDigit, Bool.or_eq_true,
    Bool.and_eq_true, decide_eq_true_eq] at h
  rcases h with (((((⟨-, h⟩ | ⟨-, h⟩) | rfl) | ⟨-, h⟩) | rfl) | rfl)
  · exact utf8Size_of_le (by decide) h
  · exact utf8Size_of_le (by decide) h
  · rfl
  · exact utf8Size_of_le (by decide) h
  · rfl
  · rfl

/-- Both characters of a double operator have one byte. -/
theorem utf8Size_of_partner? {c second : Char} (h : partner? c = some second) :
    c.utf8Size = 1 ∧ second.utf8Size = 1 := by
  unfold partner? at h
  split at h
  · next hc =>
    cases h
    exact ⟨hc ▸ rfl, rfl⟩
  · split at h
    · next hc =>
      cases h
      rcases hc with rfl | rfl <;> exact ⟨rfl, rfl⟩
    · exact nomatch h

/-- What the check keeps in mind stands in the text that it went through. -/
def Mode.Remembers (front : List Char) : Mode → Prop
  | .plain => True
  | .half offset first second =>
    second.utf8Size = 1 ∧ ∃ above, front = above ++ [first] ∧ Text.byteLength above = offset
  | .quoted offset =>
    ∃ above quoted, front = above ++ '"' :: quoted ∧ Text.byteLength above = offset

/-- The character stands in the text, behind so many bytes. -/
def StandsAt (text : List Char) (offset : Nat) (c : Char) : Prop :=
  ∃ above behind, text = above ++ c :: behind ∧ Text.byteLength above = offset

/-- The first half of an operator stands where the check came across it. -/
theorem Mode.Remembers.first {front : List Char} {offset : Nat} {first second : Char}
    (h : (half offset first second).Remembers front) (cs : List Char) :
    StandsAt (front ++ cs) offset first := by
  obtain ⟨-, above, rfl, habove⟩ := h
  exact ⟨above, cs, by simp, habove⟩

theorem Mode.Remembers.quote {front : List Char} {offset : Nat}
    (h : (quoted offset).Remembers front) (cs : List Char) :
    StandsAt (front ++ cs) offset '"' := by
  obtain ⟨above, inner, rfl, habove⟩ := h
  exact ⟨above, inner ++ cs, by simp, habove⟩

/-- Inside a quotation the check goes on to remember the opening quote. -/
theorem Mode.Remembers.quote_append {front : List Char} {offset : Nat}
    (h : (quoted offset).Remembers front) (d : Char) : (quoted offset).Remembers (front ++ [d]) := by
  obtain ⟨above, inner, rfl, habove⟩ := h
  exact ⟨above, inner ++ [d], by simp, habove⟩

/-- A stray character stands in the text at its offset. -/
theorem stray?_eq_some {mode : Mode} {front cs : List Char} {offset : Nat} {c : Char}
    (hmode : mode.Remembers front) (h : stray? mode (Text.byteLength front) cs = some (offset, c)) :
    StandsAt (front ++ cs) offset c := by
  induction cs generalizing mode front with
  | nil =>
    cases mode with
    | plain => exact nomatch h
    | half start first second =>
      cases h
      exact hmode.first []
    | quoted start =>
      cases h
      exact hmode.quote []
  | cons d cs ih =>
    have hnext : ∀ mode : Mode, mode.Remembers (front ++ [d]) →
        stray? mode (Text.byteLength front + d.utf8Size) cs = some (offset, c) →
        StandsAt (front ++ d :: cs) offset c := by
      intro mode hmode h
      have hoffset : Text.byteLength front + d.utf8Size = Text.byteLength (front ++ [d]) := by simp
      have hstands := ih hmode (hoffset ▸ h)
      rwa [List.append_assoc, List.singleton_append] at hstands
    have hhere : some (Text.byteLength front, d) = some (offset, c) →
        StandsAt (front ++ d :: cs) offset c := by
      intro h
      cases h
      exact ⟨front, cs, rfl, rfl⟩
    cases mode with
    | plain =>
      rw [stray?] at h
      split at h
      · exact hnext .plain trivial h
      · split at h
        · next hquote =>
          subst hquote
          exact hnext (.quoted (Text.byteLength front)) ⟨front, [], rfl, rfl⟩ h
        · split at h
          · next second hsecond =>
            obtain ⟨hd, hsecond⟩ := utf8Size_of_partner? hsecond
            exact hnext (.half (Text.byteLength front) d second) ⟨hsecond, front, rfl, rfl⟩
              (hd.symm ▸ h)
          · exact hhere h
    | half start first second =>
      rw [stray?] at h
      split at h
      · next hd => exact hnext .plain trivial (by rw [hd, hmode.1]; exact h)
      · cases h
        exact hmode.first (d :: cs)
    | quoted start =>
      rw [stray?] at h
      split at h
      · next hd => exact hnext .plain trivial (by rw [hd]; exact h)
      · split at h
        · next hd =>
          have hsize : d.utf8Size = 1 := by
            rcases Bool.or_eq_true _ _ ▸ hd with hd | hd
            · rw [of_decide_eq_true hd]
              rfl
            · exact utf8Size_of_isValueChar hd
          exact hnext (.quoted start) (hmode.quote_append d) (hsize.symm ▸ h)
        · exact hhere h

/-- What stands at a place of the text has the span of the fault. -/
def Fault.StandsIn (source : List Char) (fault : Fault) : Prop :=
  ∃ front token back, source = front ++ (token ++ back)
    ∧ fault.span = ⟨Text.byteLength front, Text.byteLength front + Text.byteLength token⟩

/-- A refused text has its fault at a place of its own. -/
theorem readText_place {α : Type} {p : Parser α} {source : String} {r : Report}
    (hp : ∀ f, p (.start source.toList) = .error f →
      ∃ front, source.toList = front ++ f.place.rest ∧ f.place.offset = Text.byteLength front)
    (h : readText p source = .error r) :
    ∃ fault : Fault, r = fault.toReport source ∧ fault.StandsIn source.toList := by
  cases hstray : firstStray? source.toList with
  | some stray =>
    obtain ⟨offset, c⟩ := stray
    obtain ⟨front, behind, htext, rfl⟩ := @stray?_eq_some .plain [] _ _ _ trivial hstray
    refine ⟨.stray (Text.byteLength front) c, ?_, front, [c], behind, htext, rfl⟩
    rw [readText, Grammar.read, hstray] at h
    exact (Except.error.inj h).symm
  | none =>
    obtain ⟨f, hf, rfl⟩ := readText_error hstray h
    obtain ⟨front, htext, hoffset⟩ := hp f hf
    refine ⟨.mismatch f, rfl, front, (tokenAt? f.place.rest).getD [], ?_⟩
    cases htoken : tokenAt? f.place.rest with
    | none => exact ⟨f.place.rest, htext, by rw [Fault.span, htoken, hoffset]⟩
    | some token =>
      obtain ⟨-, back, hback⟩ := tokenAt?_prefix htoken
      exact ⟨back, by rw [Option.getD_some, hback, htext], by rw [Fault.span, htoken, hoffset]⟩

/-- A parser fails at a place of the text that it reads. -/
theorem Viable.place {α : Type} {p : Parser α} {L : List Token → Prop} (hp : Viable p L)
    {cs : List Char} {f : Failure} (h : p (.start cs) = .error f) :
    ∃ front, cs = front ++ f.place.rest ∧ f.place.offset = Text.byteLength front := by
  obtain ⟨front, more, ts, hfront, -, -⟩ := (hp _ f h).text
  exact ⟨front, hfront.text, hfront.offset.trans (Nat.zero_add _)⟩

end Grammar

namespace Diagnostic

/-! ## The rendered form -/

/-- What a rendered diagnostic has behind the excerpt: the rules and the advice. -/
def footer (d : Diagnostic) : String :=
  (if d.rules.isEmpty then "" else "\n  = rules: " ++ " > ".intercalate d.rules)
    ++ (match d.help with
        | some advice => "\n  = help: " ++ advice
        | none => "")

/-- With a location, the excerpt stands between the headline and the footer. -/
theorem render_of_located {d : Diagnostic} {l : Location} (h : d.location = some l)
    (palette : Palette) (source : String) :
    d.render palette source = d.headline palette ++ excerpt l palette source ++ d.footer := by
  cases hadvice : d.help <;> simp only [render, footer, h, hadvice, String.append_assoc]

/-- A line with carets below it, from a column on. -/
def pointing (line : List Char) (column carets : Nat) : String :=
  "\n  | " ++ String.ofList line ++ "\n  | "
    ++ String.ofList (List.replicate (column - 1) ' ' ++ List.replicate carets '^')

theorem pointing_ne_empty (line : List Char) (column carets : Nat) :
    pointing line column carets ≠ "" := by
  intro h
  have := congrArg String.length h
  simp [pointing] at this

/-- Excerpts of one line and column differ if the numbers of carets do. -/
theorem pointing_inj {line : List Char} {column n m : Nat} :
    pointing line column n = pointing line column m ↔ n = m := by
  refine ⟨fun h => ?_, congrArg _⟩
  have := congrArg String.length h
  simpa [pointing] using this

/-- The excerpt of a place: nothing behind the last line feed, or the line of the place and a caret
for each byte. -/
theorem excerpt_eq {l : Location} {source : String} {above below : List (List Char)}
    {line : List Char} (h : Text.splitLines source.toList = above ++ line :: below)
    (hl : l.line = above.length + 1) :
    excerpt l .plain source
      = if below = [] ∧ line = [] then ""
        else pointing (if below = [] then line else Text.stripReturn line) l.column
          (max l.length 1) := by
  rw [excerpt, hl, Nat.add_sub_cancel, Text.getElem?_shownLines h]
  by_cases hbelow : below = []
  · by_cases hline : line = []
    · rw [if_pos hbelow, if_pos hline, if_pos ⟨hbelow, hline⟩]
    · rw [if_pos hbelow, if_neg hline, if_neg fun h => hline h.2, if_pos hbelow]
      rfl
  · rw [if_neg hbelow, if_neg fun h => hbelow h.1, if_neg hbelow]
    rfl

end Diagnostic

theorem Text.length_le_byteLength (cs : List Char) : cs.length ≤ byteLength cs := by
  induction cs with
  | nil => exact Nat.le_refl _
  | cons c cs ih =>
    have := Char.utf8Size_pos c
    rw [List.length_cons, byteLength_cons]
    omega

/-- A text has as many bytes as characters if each character has one byte. -/
theorem Text.byteLength_eq_length {cs : List Char} :
    byteLength cs = cs.length ↔ ∀ c ∈ cs, c.utf8Size = 1 := by
  induction cs with
  | nil => simp
  | cons c cs ih =>
    have hc := Char.utf8Size_pos c
    have hcs := length_le_byteLength cs
    rw [List.forall_mem_cons, ← ih, List.length_cons, byteLength_cons]
    omega

/-- A text can be cut in one way only behind so many bytes. -/
theorem Text.append_inj_byteLength {cs ds back back' : List Char} (h : cs ++ back = ds ++ back')
    (hbytes : byteLength cs = byteLength ds) : cs = ds ∧ back = back' := by
  induction cs generalizing ds with
  | nil =>
    cases ds with
    | nil => exact ⟨rfl, h⟩
    | cons d ds =>
      have := Char.utf8Size_pos d
      rw [byteLength_nil, byteLength_cons] at hbytes
      omega
  | cons c cs ih =>
    cases ds with
    | nil =>
      have := Char.utf8Size_pos c
      rw [byteLength_nil, byteLength_cons] at hbytes
      omega
    | cons d ds =>
      obtain ⟨rfl, htail⟩ := List.cons.inj h
      rw [byteLength_cons, byteLength_cons] at hbytes
      obtain ⟨rfl, hback⟩ := ih htail (by omega)
      exact ⟨rfl, hback⟩

/-- What the report is about stands in the source: `token`, which may be empty, behind the part
`left` of the line `left ++ right`, with whole lines above and below. -/
structure Report.IsAbout (r : Report) (source : String) (above below : List (List Char))
    (left right token : List Char) : Prop where
  lines : Text.splitLines source.toList = above ++ (left ++ right) :: below
  text : ∃ back, source.toList = Text.withFeeds above ++ left ++ (token ++ back)
  location : r.location = some {
    line := above.length + 1
    column := left.length + 1
    offset := Text.byteLength (Text.withFeeds above ++ left)
    length := Text.byteLength token }

/-- A report is about one part of its source only. -/
theorem Report.IsAbout.unique {r : Report} {source : String}
    {above below above' below' : List (List Char)} {left right token left' right' token' : List Char}
    (h : r.IsAbout source above below left right token)
    (h' : r.IsAbout source above' below' left' right' token') :
    (above = above' ∧ below = below') ∧ left = left' ∧ right = right' ∧ token = token' := by
  have hplace := Option.some.inj (h.location.symm.trans h'.location)
  obtain ⟨habove, hleft, -, htoken⟩ := Location.mk.inj hplace
  obtain ⟨rfl, hlines⟩ := List.append_inj (h.lines.symm.trans h'.lines) (Nat.succ.inj habove)
  obtain ⟨hline, rfl⟩ := List.cons.inj hlines
  obtain ⟨rfl, rfl⟩ := List.append_inj hline (Nat.succ.inj hleft)
  obtain ⟨back, htext⟩ := h.text
  obtain ⟨back', htext'⟩ := h'.text
  have htail := List.append_cancel_left (htext.symm.trans htext')
  exact ⟨⟨rfl, rfl⟩, rfl, rfl, (Text.append_inj_byteLength htail htoken).1⟩

/-- **A rendered syntax error points at what is wrong**, with a caret for each of its characters and
one at least, exactly if these characters have one byte each and the line is not an empty one behind
the last line feed. A line is shown without its line end, of which a carriage return may be a part.
-/
theorem Assignment.render_points_iff {source : String} {r : Report}
    (h : Assignment.ofText source = .error r) :
    ∃ (above below : List (List Char)) (left right token : List Char),
      r.IsAbout source above below left right token
        ∧ (r.toDiagnostic.render .plain source
            = r.toDiagnostic.headline .plain
              ++ Diagnostic.pointing
                (if below = [] then left ++ right else Text.stripReturn (left ++ right))
                (left.length + 1) (max token.length 1)
              ++ r.toDiagnostic.footer
          ↔ (∀ c ∈ token, c.utf8Size = 1) ∧ ¬ (below = [] ∧ left ++ right = [])) := by
  obtain ⟨fault, rfl, front, token, back, htext, hspan⟩ :=
    Grammar.readText_place (fun f hf => Grammar.assignment_viable.place hf) h
  obtain ⟨above, hfront, hlength, hsplit⟩ := Text.exists_lines_above front
  obtain ⟨right, below, hright⟩ :=
    List.exists_cons_of_ne_nil (Text.splitLines_ne_nil (token ++ back))
  have hline := htext ▸ hsplit _ _ _ hright
  have hlocation : Location.ofSpan fault.span source
      = ⟨above.length + 1, (Location.lastLine front).length + 1, Text.byteLength front,
          Text.byteLength token⟩ := by
    simp [Location.ofSpan, hspan, htext, hlength, Span.length]
  have hcolumn : (Location.ofSpan fault.span source).column
      = (Location.lastLine front).length + 1 := congrArg Location.column hlocation
  have hbytes : (Location.ofSpan fault.span source).length = Text.byteLength token :=
    congrArg Location.length hlocation
  refine ⟨above, below, Location.lastLine front, right, token,
    ⟨hline, ⟨back, by rw [← hfront, htext]⟩, by rw [← hfront, ← hlocation]; rfl⟩, ?_⟩
  rw [Diagnostic.render_of_located rfl, String.append_left_inj, String.append_right_inj,
    Diagnostic.excerpt_eq hline (congrArg Location.line hlocation), hcolumn, hbytes]
  by_cases hnone : below = [] ∧ Location.lastLine front ++ right = []
  · rw [if_pos hnone]
    exact iff_of_false (Diagnostic.pointing_ne_empty _ _ _).symm fun h => h.2 hnone
  · rw [if_neg hnone, Diagnostic.pointing_inj, and_iff_left hnone, ← Text.byteLength_eq_length]
    cases token with
    | nil => simp
    | cons c cs =>
      have := Text.length_le_byteLength (c :: cs)
      rw [List.length_cons] at this ⊢
      omega

/-- The place of the report about a refused text. -/
def errorLocation? {α : Type} : Except Report α → Option Location
  | .error r => r.location
  | .ok _ => none

/-- A place of a refused text is that of the report about it. -/
theorem exists_of_errorLocation? {α : Type} {answer : Except Report α} {l : Location}
    (h : errorLocation? answer = some l) : ∃ r, answer = .error r ∧ r.location = some l := by
  cases answer with
  | ok a => exact nomatch h
  | error r => exact ⟨r, rfl, h⟩

/-- A character of two bytes gets two carets, and an end behind the last line feed gets no line. -/
theorem Assignment.render_points_iff_beside :
    (∃ r above below left right, Assignment.ofText "x = é" = .error r
      ∧ r.IsAbout "x = é" above below left right ['é']
      ∧ r.toDiagnostic.render .plain "x = é"
        ≠ r.toDiagnostic.headline .plain ++ Diagnostic.pointing "x = é".toList 5 1
          ++ r.toDiagnostic.footer)
    ∧ ∃ r, Assignment.ofText "x = 1 +\n" = .error r
      ∧ r.IsAbout "x = 1 +\n" ["x = 1 +".toList] [] [] [] []
      ∧ r.toDiagnostic.render .plain "x = 1 +\n"
        ≠ r.toDiagnostic.headline .plain ++ Diagnostic.pointing [] 1 1
          ++ r.toDiagnostic.footer := by
  constructor
  · obtain ⟨r, hr, hlocation⟩ := exists_of_errorLocation? (l := ⟨1, 5, 4, 2⟩)
      (by decide +kernel : errorLocation? (Assignment.ofText "x = é") = _)
    have hletter : r.IsAbout "x = é" [] [] "x = ".toList ['é'] ['é'] :=
      ⟨by decide, ⟨[], by decide⟩, hlocation⟩
    obtain ⟨above, below, left, right, token, habout, hiff⟩ := render_points_iff hr
    obtain ⟨⟨rfl, rfl⟩, rfl, rfl, rfl⟩ := hletter.unique habout
    refine ⟨r, [], [], _, _, hr, habout, fun hpoints => ?_⟩
    exact absurd ((hiff.mp hpoints).1 'é' (by simp)) (by decide)
  · obtain ⟨r, hr, hlocation⟩ := exists_of_errorLocation? (l := ⟨2, 1, 8, 0⟩)
      (by decide +kernel : errorLocation? (Assignment.ofText "x = 1 +\n") = _)
    have hend : r.IsAbout "x = 1 +\n" ["x = 1 +".toList] [] [] [] [] :=
      ⟨by decide, ⟨[], by decide⟩, hlocation⟩
    obtain ⟨above, below, left, right, token, habout, hiff⟩ := render_points_iff hr
    obtain ⟨⟨rfl, rfl⟩, rfl, rfl, rfl⟩ := hend.unique habout
    refine ⟨r, hr, habout, fun hpoints => ?_⟩
    exact (hiff.mp hpoints).2 ⟨rfl, rfl⟩

end DerivedStats
