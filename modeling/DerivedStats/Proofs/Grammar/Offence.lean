import DerivedStats.Proofs.Grammar.Language
import DerivedStats.Proofs.Grammar.Viability

/-!
# Reports point at the first offence

A text without stray characters that is refused makes sense up to the place that the report gives:
what stands in front of it can be completed to a text that is read (`Viable`). At the end of the
text there is no token to blame, and the report says so; anywhere else it names the token, which is
the text in the extent of its location.

Main result: `refused_at_first_offence`.
-/

namespace DerivedStats

/-- The report is about a place up to which the source makes sense, and about what stands there. -/
structure FirstOffence {α : Type} (ofText : String → Except Report α) (source : String) (r : Report)
    (l : Location) : Prop where
  located : r.location = some l
  /-- Between two characters, and what is in front of it starts a text that is read. -/
  viable : ∃ front back, source.toList = front ++ back ∧ l.offset = Text.byteLength front
    ∧ ∃ more a, ofText (String.ofList (front ++ more)) = .ok a
  code_eq_unexpectedEnd : r.code = .unexpectedEnd ↔ l.offset = Text.byteLength source.toList
  message_unexpectedEnd : r.code = .unexpectedEnd →
    ∃ expected, r.message = "mismatched input '<EOF>'" ++ expected
  mismatchedInput : r.code ≠ .unexpectedEnd → r.code = .mismatchedInput
    ∧ ∃ token expected, token ≠ []
      ∧ Text.slice? l.offset (l.offset + l.length) source.toList = some token
      ∧ r.message = "mismatched input '" ++ String.ofList token ++ "'" ++ expected

namespace Grammar

/-- A text starts with its first token, which is not empty. -/
theorem tokenAt?_prefix {cs token : List Char} (h : tokenAt? cs = some token) :
    token ≠ [] ∧ token <+: cs := by
  cases cs with
  | nil => exact nomatch h
  | cons c cs =>
    unfold tokenAt? at h
    simp only at h
    split at h
    · obtain rfl := Option.some.inj h
      exact ⟨by simp, List.take_prefix _ _⟩
    · split at h
      · next hname =>
        obtain rfl := Option.some.inj h
        exact ⟨by simp [hname], List.takeWhile_prefix _⟩
      · split at h
        · obtain rfl := Option.some.inj h
          exact ⟨by simp, List.take_prefix _ _⟩
        · obtain rfl := Option.some.inj h
          exact ⟨by simp, cs, rfl⟩

/-- Before the end of the text there is a token to report. -/
theorem exists_tokenAt? {cs : List Char} (hne : cs ≠ []) : ∃ token, tokenAt? cs = some token := by
  obtain ⟨c, cs, rfl⟩ := List.exists_cons_of_ne_nil hne
  unfold tokenAt?
  simp only
  split
  · exact ⟨_, rfl⟩
  · split
    · exact ⟨_, rfl⟩
    · split <;> exact ⟨_, rfl⟩

/-- The message names the token that stands at the place of the fault, or the end of the text. -/
theorem Fault.message_names (f : Failure) (named : String)
    (h : (match tokenAt? f.place.rest with
      | some token => String.ofList token
      | none => "<EOF>") = named) :
    ∃ expected, (mismatch f).message = "mismatched input '" ++ named ++ "'" ++ expected := by
  subst h
  exact ⟨_, rfl⟩

/-- At the end of the text the report names the end. -/
theorem Fault.report_at_end {f : Failure} (source : String) (h : f.place.rest = []) :
    ((mismatch f).toReport source).code = .unexpectedEnd
      ∧ ∃ expected, ((mismatch f).toReport source).message
        = "mismatched input '<EOF>'" ++ expected := by
  constructor
  · show (mismatch f).code = _
    rw [code, h]
    rfl
  · have hquoted : "mismatched input '" ++ "<EOF>" ++ "'" = "mismatched input '<EOF>'" := by decide
    rw [← hquoted]
    refine message_names f _ ?_
    rw [h]
    rfl

/-- Anywhere else it names the token at the place of the fault and gives its extent. -/
theorem Fault.report_at_token {f : Failure} {source : String} {front : List Char}
    (htext : source.toList = front ++ f.place.rest)
    (hoffset : f.place.offset = Text.byteLength front) (h : f.place.rest ≠ []) :
    ((mismatch f).toReport source).code = .mismatchedInput
      ∧ ∃ token expected, token ≠ []
        ∧ Text.slice? (mismatch f).span.start ((mismatch f).span.start + (mismatch f).span.length)
          source.toList = some token
        ∧ ((mismatch f).toReport source).message
          = "mismatched input '" ++ String.ofList token ++ "'" ++ expected := by
  obtain ⟨token, htoken⟩ := exists_tokenAt? h
  obtain ⟨hne, back, hback⟩ := tokenAt?_prefix htoken
  constructor
  · show (mismatch f).code = _
    rw [code, if_neg (by simpa using h)]
  · obtain ⟨expected, hmessage⟩ := message_names f (String.ofList token) (by rw [htoken])
    refine ⟨token, expected, hne, ?_, hmessage⟩
    rw [span, Span.length, htoken, Option.getD_some, Nat.add_sub_cancel_left, hoffset, htext,
      ← hback]
    exact Text.slice?_append front token back

/-- A text without stray characters is refused where the parser fails. -/
theorem readText_error {α : Type} {p : Parser α} {source : String} {r : Report}
    (hplain : firstStray? source.toList = none) (h : readText p source = .error r) :
    ∃ f, p (.start source.toList) = .error f ∧ r = (Fault.mismatch f).toReport source := by
  unfold readText Grammar.read at h
  rw [hplain] at h
  cases hp : p (.start source.toList) with
  | ok v =>
    rw [hp] at h
    exact nomatch h
  | error f =>
    rw [hp] at h
    exact ⟨f, rfl, (Except.error.inj h).symm⟩

/-- What is reported of a parser that is viable, about texts that it reads as soon as their tokens form
one of its phrases. -/
theorem Viable.firstOffence {α : Type} {p : Parser α} {L : List Token → Prop} (hp : Viable p L)
    (haccepts : ∀ {cs : List Char} {ts : List Token}, Lexes cs ts [] → L ts →
      ∃ a, readText p (String.ofList cs) = .ok a)
    {source : String} {r : Report} (hplain : firstStray? source.toList = none)
    (h : readText p source = .error r) : ∃ l, FirstOffence (readText p) source r l := by
  obtain ⟨f, hf, rfl⟩ := readText_error hplain h
  obtain ⟨front, more, ts, hfront, hlexes, hL⟩ := (hp _ f hf).text
  obtain ⟨a, ha⟩ := haccepts hlexes hL
  have htext : source.toList = front ++ f.place.rest := hfront.text
  have hoffset : f.place.offset = Text.byteLength front := by
    rw [hfront.offset]
    exact Nat.zero_add _
  have hend := hfront.at_end_iff
  have hviable : ∃ front back, source.toList = front ++ back
      ∧ (Location.ofSpan (Fault.mismatch f).span source).offset = Text.byteLength front
      ∧ ∃ more a, readText p (String.ofList (front ++ more)) = .ok a :=
    ⟨front, f.place.rest, htext, hoffset, more, a, ha⟩
  refine ⟨.ofSpan (Fault.mismatch f).span source, ?_⟩
  by_cases hnil : f.place.rest = []
  · obtain ⟨hcode, hmessage⟩ := Fault.report_at_end source hnil
    exact {
      located := rfl
      viable := hviable
      code_eq_unexpectedEnd := ⟨fun _ => hend.mp hnil, fun _ => hcode⟩
      message_unexpectedEnd := fun _ => hmessage
      mismatchedInput := fun hne => absurd hcode hne }
  · obtain ⟨hcode, htoken⟩ := Fault.report_at_token htext hoffset hnil
    have hne : ((Fault.mismatch f).toReport source).code ≠ .unexpectedEnd := by
      rw [hcode]
      decide
    exact {
      located := rfl
      viable := hviable
      code_eq_unexpectedEnd := ⟨fun h => absurd h hne, fun h => absurd (hend.mpr h) hnil⟩
      message_unexpectedEnd := fun h => absurd h hne
      mismatchedInput := fun _ => ⟨hcode, htoken⟩ }

/-! ## Texts that are read -/

/-- A text that is made of tokens, and that a parser reads to its end, is read. -/
theorem readText_of_reads {α : Type} {p : Parser α} {cs : List Char} {ts : List Token} {P : α → Prop}
    (hlexes : Lexes cs ts []) (h : Reads p cs P []) : ∃ a, readText p (String.ofList cs) = .ok a := by
  obtain ⟨a, offset, hok, -⟩ := h 0
  have hstart : (String.ofList cs).toList = cs := String.toList_ofList
  exact ⟨a, readText_ok_iff.mpr
    ⟨firstStray?_of_lexes (hstart.symm ▸ hlexes), _, hstart.symm ▸ hok⟩⟩

end Grammar

open Grammar

/-- **A text is refused at the first offence.** If a text without stray characters is refused as a
definition, an expression, a list of arguments or a single mention, then the report gives a place
between two characters, at the end at most, up to which the text can be completed to one that is read
in the same way. At the end of the text, and only there, the code is the one for an unexpected end and
the message names the end; elsewhere the code is the one for a mismatch, and the message names a token
that is not empty and is what the location cuts out of the text. -/
theorem refused_at_first_offence {source : String} (hplain : firstStray? source.toList = none) :
    (∀ r, Assignment.ofText source = .error r → ∃ l, FirstOffence Assignment.ofText source r l)
    ∧ (∀ r, Expr.ofText source = .error r → ∃ l, FirstOffence Expr.ofText source r l)
    ∧ (∀ r, Expr.listOfText source = .error r → ∃ l, FirstOffence Expr.listOfText source r l)
    ∧ ∀ r, Mention.ofText source = .error r → ∃ l, FirstOffence Mention.ofText source r l := by
  refine ⟨fun r h => ?_, fun r h => ?_, fun r h => ?_, fun r h => ?_⟩
  · refine assignment_viable.firstOffence ?_ hplain h
    rintro cs ts hlexes ⟨a, ha⟩
    exact readText_of_reads hlexes (assignment_complete hlexes ha)
  · refine complete_expression_viable.firstOffence ?_ hplain h
    rintro cs ts hlexes ⟨e, he⟩
    obtain ⟨rest, hrest, hread⟩ := expression_complete hlexes he (.inl rfl)
    exact readText_of_reads hlexes (reads_complete hrest hread)
  · refine complete_arguments_viable.firstOffence ?_ hplain h
    intro cs ts hlexes hrow
    obtain ⟨parts, hne, rfl, hparts⟩ := hrow.parts
    have hstart : (String.ofList cs).toList = cs := String.toList_ofList
    obtain ⟨es, hes, -⟩ := listOfText_of_derives hne (hstart.symm ▸ hlexes) hparts
    exact ⟨es, hes⟩
  · refine soleMention_viable.firstOffence ?_ hplain h
    rintro cs ts hlexes ⟨m, rfl⟩
    exact readText_of_reads hlexes (soleMention_complete hlexes)

/-- Of `==` in place of one `=` the first half still makes sense. -/
theorem refused_at_first_offence_equals : ∃ r l, Assignment.ofText "foo == bar" = .error r
    ∧ FirstOffence Assignment.ofText "foo == bar" r l ∧ l.offset = 5 := by
  have hplace : (match Assignment.ofText "foo == bar" with
      | .error r => r.location.map (·.offset)
      | .ok _ => none) = some 5 := by
    decide +kernel
  cases h : Assignment.ofText "foo == bar" with
  | ok a =>
    rw [h] at hplace
    exact nomatch hplace
  | error r =>
    rw [h] at hplace
    obtain ⟨l, hl⟩ := (@refused_at_first_offence "foo == bar" (by decide +kernel)).1 r h
    refine ⟨r, l, rfl, hl, ?_⟩
    simpa [hl.located] using hplace

end DerivedStats
