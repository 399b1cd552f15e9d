import DerivedStats.Grammar.Phrase
import DerivedStats.Proofs.Grammar.Token
import Mathlib.Data.List.TakeWhile

/-!
# What parsers read

Three statements about a parser and the text at its cursor, and how each one passes through the
combinators. `Reads` says that the parser succeeds, with a value that has a given property and up to
a given rest; `Lacks` says that its phrase is not there, so that a choice goes on with the next
alternative; `Mild` says that a parser never cuts a choice short. None of them depends on where the
text stands. The lemmas `…_ok` go the other way: they say how a combinator can have succeeded.
-/

namespace DerivedStats.Grammar

open DerivedStats.Grammar.Parser

variable {α β : Type}

/-- The parser reads the text up to the rest, and its value has the property. -/
def Reads (p : Parser α) (cs : List Char) (P : α → Prop) (rest : List Char) : Prop :=
  ∀ offset, ∃ a offset', p ⟨offset, cs⟩ = .ok (a, ⟨offset', rest⟩) ∧ P a

/-- The phrase is not there, and another one may be tried. -/
def Lacks (p : Parser α) (cs : List Char) : Prop :=
  ∀ offset, ∃ failure, p ⟨offset, cs⟩ = .error failure ∧ failure.final = false

/-- No failure of the parser is final. -/
def Mild (p : Parser α) : Prop := ∀ c failure, p c = .error failure → failure.final = false

/-! ## How a combinator succeeds -/

/-- A sequence succeeds if both steps do, the second one behind the first. -/
theorem bind_ok {p : Parser α} {f : α → Parser β} {c : Cursor} {r : β × Cursor}
    (h : (p >>= f) c = .ok r) : ∃ a c', p c = .ok (a, c') ∧ f a c' = .ok r := by
  rw [bind_apply] at h
  cases hp : p c with
  | error failure => simp [hp] at h
  | ok v => exact ⟨v.1, v.2, rfl, by simpa [hp] using h⟩

theorem pure_ok {a : α} {c : Cursor} {r : α × Cursor} (h : (pure a : Parser α) c = .ok r) :
    r = (a, c) :=
  (Except.ok.inj h).symm

/-- A changed failure leaves success as it is. -/
theorem mapFailure_ok {g : Failure → Failure} {p : Parser α} {c : Cursor} {r : α × Cursor}
    (h : p.mapFailure g c = .ok r) : p c = .ok r := by
  unfold mapFailure at h
  cases hp : p c with
  | error failure => simp [hp] at h
  | ok v => simpa [hp] using h

/-- A choice succeeds by its first alternative, or by the second one where the first one fails. -/
theorem orElse_ok {p q : Parser α} {c : Cursor} {r : α × Cursor} (h : (p <|> q) c = .ok r) :
    p c = .ok r ∨ ((∃ failure, p c = .error failure) ∧ q c = .ok r) := by
  rw [orElse_apply] at h
  cases hp : p c with
  | ok v => exact .inl (by simpa [hp] using h)
  | error failure =>
    rw [hp] at h
    simp only at h
    split at h
    · exact absurd h (by simp)
    · exact .inr ⟨⟨failure, rfl⟩, h⟩

/-- An optional phrase is read, or it fails and nothing is read. -/
theorem optional_ok {p : Parser α} {c c' : Cursor} {o : Option α}
    (h : Parser.optional p c = .ok (o, c')) :
    (∃ a, o = some a ∧ p c = .ok (a, c')) ∨
      (o = none ∧ c = c' ∧ ∃ failure, p c = .error failure) := by
  unfold Parser.optional at h
  cases hp : p c with
  | ok v =>
    rw [hp] at h
    obtain ⟨rfl, rfl⟩ := Prod.mk.inj (Except.ok.inj h)
    exact .inl ⟨v.1, rfl, rfl⟩
  | error failure =>
    rw [hp] at h
    simp only at h
    split at h
    · exact absurd h (by simp)
    · obtain ⟨rfl, rfl⟩ := Prod.mk.inj (Except.ok.inj h)
      exact .inr ⟨rfl, rfl, failure, rfl⟩

/-- A node gets the span of the text that was read for it. -/
theorem spanned_ok {p : Parser (Span → Expr)} {c c' : Cursor} {e : Expr}
    (h : spanned p c = .ok (e, c')) :
    ∃ node, p c = .ok (node, c') ∧ e = node ⟨c.offset, c'.offset⟩ := by
  obtain ⟨_, _, hstart, h⟩ := bind_ok h
  obtain ⟨rfl, rfl⟩ := Prod.mk.inj (Except.ok.inj hstart)
  obtain ⟨node, mid, hnode, h⟩ := bind_ok h
  obtain ⟨_, _, hstop, h⟩ := bind_ok h
  obtain ⟨rfl, rfl⟩ := Prod.mk.inj (Except.ok.inj hstop)
  obtain ⟨rfl, rfl⟩ := Prod.mk.inj (pure_ok h)
  exact ⟨node, hnode, rfl⟩

/-- The character that was read has the property, and it is the next one. -/
theorem satisfy_ok {p : Char → Bool} {c c' : Cursor} {x : Char} (h : satisfy p c = .ok (x, c')) :
    p x = true ∧ c.rest = x :: c'.rest := by
  unfold satisfy at h
  cases hc : c.rest with
  | nil => simp [hc, fail] at h
  | cons y rest =>
    rw [hc] at h
    simp only at h
    split at h
    · next hy =>
      obtain ⟨rfl, rfl⟩ := Prod.mk.inj (Except.ok.inj h)
      exact ⟨hy, rfl⟩
    · exact absurd h (by simp [fail])

/-- The character that was read is the next one. -/
theorem character_ok {x : Char} {c c' : Cursor} {u : Unit} (h : character x c = .ok (u, c')) :
    c.rest = x :: c'.rest := by
  obtain ⟨y, mid, hy, h⟩ := bind_ok h
  obtain ⟨-, rfl⟩ := Prod.mk.inj (pure_ok h)
  obtain ⟨hx, hrest⟩ := satisfy_ok hy
  rw [hrest, of_decide_eq_true hx]

/-- A run is made of characters with the property and goes on as long as there are some. -/
theorem run_ok {p : Char → Bool} {c c' : Cursor} {w : List Char} (h : run p c = .ok (w, c')) :
    c.rest = w ++ c'.rest ∧ (∀ x ∈ w, p x = true) ∧ c'.rest.head?.any p = false := by
  obtain ⟨rfl, rfl⟩ := Prod.mk.inj (Except.ok.inj h)
  refine ⟨List.takeWhile_append_dropWhile.symm, fun x hx => List.mem_takeWhile_imp hx, ?_⟩
  have hhead := List.head?_dropWhile_not p c.rest
  show (List.dropWhile p c.rest).head?.any p = false
  cases hd : (List.dropWhile p c.rest).head? with
  | none => rfl
  | some y => simpa [hd] using hhead

/-- A run that must not be empty has a character. -/
theorem run1_ok {p : Char → Bool} {c c' : Cursor} {w : List Char} (h : run1 p c = .ok (w, c')) :
    c.rest = w ++ c'.rest ∧ w ≠ [] ∧ (∀ x ∈ w, p x = true) ∧ c'.rest.head?.any p = false := by
  obtain ⟨x, mid, hx, h⟩ := bind_ok h
  obtain ⟨w', mid', hw, h⟩ := bind_ok h
  obtain ⟨rfl, rfl⟩ := Prod.mk.inj (pure_ok h)
  obtain ⟨hpx, hrest⟩ := satisfy_ok hx
  obtain ⟨hrest', hall, hend⟩ := run_ok hw
  refine ⟨by rw [hrest, hrest']; rfl, by simp, ?_, hend⟩
  intro y hy
  rcases List.mem_cons.mp hy with rfl | hy
  · exact hpx
  · exact hall y hy

/-- The word that was read is the next piece of the text. -/
theorem word_ok {w : List Char} {c c' : Cursor} {u : Unit} (h : word w c = .ok (u, c')) :
    c.rest = w ++ c'.rest := by
  unfold word at h
  split at h
  · next hw =>
    obtain ⟨-, rfl⟩ := Prod.mk.inj (Except.ok.inj h)
    obtain ⟨rest, hrest⟩ := List.isPrefixOf_iff_prefix.mp hw
    show c.rest = w ++ c.rest.drop w.length
    rw [← hrest, List.drop_left]
  · exact absurd h (by simp [fail])

/-- At the end of the text nothing is left, and nothing is read. -/
theorem endOfText_ok {c c' : Cursor} {u : Unit} (h : endOfText c = .ok (u, c')) :
    c.rest = [] ∧ c' = c := by
  unfold endOfText at h
  split at h
  · next hc =>
    obtain ⟨-, rfl⟩ := Prod.mk.inj (Except.ok.inj h)
    exact ⟨List.isEmpty_iff.mp hc, rfl⟩
  · exact absurd h (by simp [fail])

/-! ## Failures that are not final -/

/-- A sequence of mild parsers is mild. -/
theorem Mild.bind {p : Parser α} {f : α → Parser β} (hp : Mild p) (hf : ∀ a, Mild (f a)) :
    Mild (p >>= f) := by
  intro c failure h
  rw [bind_apply] at h
  cases hc : p c with
  | error failure' =>
    rw [hc] at h
    obtain rfl := Except.error.inj h
    exact hp c _ hc
  | ok v =>
    rw [hc] at h
    exact hf v.1 v.2 _ h

theorem mild_pure (a : α) : Mild (pure a : Parser α) := by
  intro c failure h
  rw [pure_apply] at h
  exact nomatch h

theorem mild_fail : Mild (fail : Parser α) := by
  intro c failure h
  rw [← Except.error.inj h]

theorem Mild.optional {p : Parser α} (hp : Mild p) : Mild (optional p) := by
  intro c failure h
  unfold Parser.optional at h
  cases hc : p c with
  | ok v => simp [hc] at h
  | error failure' => simp [hc, hp c _ hc] at h

theorem Mild.orElse {p q : Parser α} (hp : Mild p) (hq : Mild q) : Mild (p <|> q) := by
  intro c failure h
  rw [orElse_apply] at h
  cases hc : p c with
  | ok v => simp [hc] at h
  | error failure' =>
    rw [hc] at h
    simp only [hp c _ hc] at h
    exact hq c _ h

theorem Mild.spanned {p : Parser (Span → Expr)} (hp : Mild p) : Mild (spanned p) := by
  have hoffset : Mild offset := by
    intro c failure h
    exact nomatch h
  exact hoffset.bind fun _ => hp.bind fun _ => hoffset.bind fun _ => mild_pure _

theorem mild_satisfy (p : Char → Bool) : Mild (satisfy p) := by
  intro c failure h
  unfold satisfy at h
  split at h
  · split at h
    · exact nomatch h
    · exact mild_fail _ _ h
  · exact mild_fail _ _ h

theorem mild_character (x : Char) : Mild (character x) :=
  (mild_satisfy _).bind fun _ => mild_pure _

theorem mild_run (p : Char → Bool) : Mild (run p) := by
  intro c failure h
  exact nomatch h

theorem mild_run1 (p : Char → Bool) : Mild (run1 p) :=
  (mild_satisfy p).bind fun _ => (mild_run p).bind fun _ => mild_pure _

theorem mild_word (w : List Char) : Mild (word w) := by
  intro c failure h
  unfold word at h
  split at h
  · exact nomatch h
  · exact mild_fail _ _ h

/-- What a mild parser does not read is not there. -/
theorem Mild.lacks {p : Parser α} {cs : List Char} (hp : Mild p)
    (h : ∀ offset r, p ⟨offset, cs⟩ ≠ .ok r) : Lacks p cs := by
  intro offset
  cases hc : p ⟨offset, cs⟩ with
  | ok r => exact absurd hc (h offset r)
  | error failure => exact ⟨failure, rfl, hp _ _ hc⟩

/-! ## Phrases that are not there -/

/-- A sequence is not there if its first part is not. -/
theorem Lacks.bind {p : Parser α} {f : α → Parser β} {cs : List Char} (h : Lacks p cs) :
    Lacks (p >>= f) cs := by
  intro offset
  obtain ⟨failure, hp, hfinal⟩ := h offset
  exact ⟨failure, by rw [bind_apply, hp], hfinal⟩

/-- A changed failure leaves a phrase missing, if it does not become final. -/
theorem Lacks.mapFailure {g : Failure → Failure} {p : Parser α} {cs : List Char} (h : Lacks p cs)
    (hg : ∀ f, (g f).final = f.final) : Lacks (p.mapFailure g) cs := by
  intro offset
  obtain ⟨failure, hp, hfinal⟩ := h offset
  exact ⟨g failure, by rw [Parser.mapFailure, hp], by rw [hg, hfinal]⟩

theorem Lacks.labelled {r : Rule} {p : Parser α} {cs : List Char} (h : Lacks p cs) :
    Lacks (labelled r p) cs :=
  h.mapFailure fun _ => rfl

theorem Lacks.spanned {p : Parser (Span → Expr)} {cs : List Char} (h : Lacks p cs) :
    Lacks (spanned p) cs := by
  intro offset
  obtain ⟨failure, hp, hfinal⟩ := h offset
  refine ⟨failure, ?_, hfinal⟩
  unfold Grammar.spanned
  rw [bind_apply]
  show (p >>= _) _ = _
  rw [bind_apply, hp]

/-! ## Phrases that are there -/

/-- A property of what is read may be weakened. -/
theorem Reads.mono {p : Parser α} {cs rest : List Char} {P Q : α → Prop} (h : Reads p cs P rest)
    (hPQ : ∀ a, P a → Q a) : Reads p cs Q rest := by
  intro offset
  obtain ⟨a, offset', hp, ha⟩ := h offset
  exact ⟨a, offset', hp, hPQ a ha⟩

theorem Reads.pure {P : α → Prop} {a : α} (cs : List Char) (h : P a) :
    Reads (pure a) cs P cs :=
  fun offset => ⟨a, offset, rfl, h⟩

/-- A sequence reads what its parts read, one behind the other. -/
theorem Reads.bind {p : Parser α} {f : α → Parser β} {cs mid rest : List Char} {P : α → Prop}
    {Q : β → Prop} (hp : Reads p cs P mid) (hf : ∀ a, P a → Reads (f a) mid Q rest) :
    Reads (p >>= f) cs Q rest := by
  intro offset
  obtain ⟨a, offset', ha, hPa⟩ := hp offset
  obtain ⟨b, offset'', hb, hQb⟩ := hf a hPa offset'
  exact ⟨b, offset'', by rw [bind_apply, ha]; exact hb, hQb⟩

/-- The second phrase is not there behind the first one, so the whole is not there. -/
theorem Reads.bind_lacks {p : Parser α} {f : α → Parser β} {cs mid : List Char} {P : α → Prop}
    (hp : Reads p cs P mid) (hf : ∀ a, P a → Lacks (f a) mid) : Lacks (p >>= f) cs := by
  intro offset
  obtain ⟨a, offset', ha, hPa⟩ := hp offset
  obtain ⟨failure, hb, hfinal⟩ := hf a hPa offset'
  exact ⟨failure, by rw [bind_apply, ha]; exact hb, hfinal⟩

theorem Reads.mapFailure {g : Failure → Failure} {p : Parser α} {cs rest : List Char}
    {P : α → Prop} (h : Reads p cs P rest) : Reads (p.mapFailure g) cs P rest := by
  intro offset
  obtain ⟨a, offset', hp, ha⟩ := h offset
  exact ⟨a, offset', by rw [Parser.mapFailure, hp], ha⟩

theorem Reads.labelled {r : Rule} {p : Parser α} {cs rest : List Char} {P : α → Prop}
    (h : Reads p cs P rest) : Reads (labelled r p) cs P rest :=
  h.mapFailure

theorem Reads.expecting {x : Expectation} {p : Parser α} {cs rest : List Char} {P : α → Prop}
    (h : Reads p cs P rest) : Reads (expecting x p) cs P rest :=
  h.mapFailure

theorem Reads.committed {p : Parser α} {cs rest : List Char} {P : α → Prop}
    (h : Reads p cs P rest) : Reads (committed p) cs P rest :=
  h.mapFailure

/-- An optional phrase that is there is read. -/
theorem Reads.optional {p : Parser α} {cs rest : List Char} {P : α → Prop}
    (h : Reads p cs P rest) : Reads (optional p) cs (fun o => ∃ a, o = some a ∧ P a) rest := by
  intro offset
  obtain ⟨a, offset', hp, ha⟩ := h offset
  exact ⟨some a, offset', by rw [Parser.optional, hp], a, rfl, ha⟩

/-- An optional phrase that is not there is passed over. -/
theorem Lacks.optional {p : Parser α} {cs : List Char} (h : Lacks p cs) :
    Reads (optional p) cs (· = none) cs := by
  intro offset
  obtain ⟨failure, hp, hfinal⟩ := h offset
  exact ⟨none, offset, by simp [Parser.optional, hp, hfinal], rfl⟩

/-- A choice reads what its first alternative reads. -/
theorem Reads.orElse {p q : Parser α} {cs rest : List Char} {P : α → Prop}
    (h : Reads p cs P rest) : Reads (p <|> q) cs P rest := by
  intro offset
  obtain ⟨a, offset', hp, ha⟩ := h offset
  exact ⟨a, offset', by rw [orElse_apply, hp], ha⟩

/-- A choice reads what its second alternative reads, if the first phrase is not there. -/
theorem Lacks.orElse {p q : Parser α} {cs rest : List Char} {P : α → Prop} (h : Lacks p cs)
    (hq : Reads q cs P rest) : Reads (p <|> q) cs P rest := by
  intro offset
  obtain ⟨failure, hp, hfinal⟩ := h offset
  obtain ⟨a, offset', hq, ha⟩ := hq offset
  exact ⟨a, offset', by simp [orElse_apply, hp, hfinal, hq], ha⟩

/-- A node is read with some span. -/
theorem Reads.spanned {p : Parser (Span → Expr)} {cs rest : List Char} {P : Expr → Prop}
    (h : Reads p cs (fun node => ∀ span, P (node span)) rest) : Reads (spanned p) cs P rest := by
  intro offset
  obtain ⟨node, offset', hp, hnode⟩ := h offset
  refine ⟨node ⟨offset, offset'⟩, offset', ?_, hnode _⟩
  unfold Grammar.spanned
  rw [bind_apply]
  show (p >>= _) _ = _
  rw [bind_apply, hp]
  rfl

/-- Spacing reads up to the next character that is none. -/
theorem reads_spacing (cs : List Char) : Reads spacing cs (fun _ => True) (ahead cs) :=
  fun _ => ⟨(), _, rfl, trivial⟩

theorem reads_offset (cs : List Char) : Reads offset cs (fun _ => True) cs :=
  fun offset => ⟨offset, offset, rfl, trivial⟩

theorem reads_remaining (cs : List Char) : Reads remaining cs (· = cs.length) cs :=
  fun offset => ⟨_, offset, rfl, rfl⟩

/-- A character with the property is read. -/
theorem reads_satisfy {p : Char → Bool} {x : Char} (h : p x = true) (cs : List Char) :
    Reads (satisfy p) (x :: cs) (· = x) cs :=
  fun offset => ⟨x, offset + Text.byteLength [x], by simp [satisfy, h, Cursor.past], rfl⟩

theorem reads_character (x : Char) (cs : List Char) :
    Reads (character x) (x :: cs) (fun _ => True) cs :=
  (reads_satisfy (by simp) cs).bind fun _ _ => .pure _ trivial

theorem reads_expectedCharacter (x : Char) (cs : List Char) :
    Reads (expectedCharacter x) (x :: cs) (fun _ => True) cs :=
  (reads_character x cs).expecting

/-- Another character is not the wanted one. -/
theorem lacks_character {x : Char} {cs : List Char} (h : cs.head? ≠ some x) :
    Lacks (character x) cs :=
  (mild_character x).lacks fun offset r hr => h (by
    obtain ⟨u, c'⟩ := r
    rw [show cs = x :: c'.rest from character_ok hr]
    rfl)

theorem reads_endOfText : Reads endOfText [] (fun _ => True) [] :=
  fun offset => ⟨(), offset, rfl, trivial⟩

/-- A word is read in front of any rest. -/
theorem reads_word (w rest : List Char) : Reads (word w) (w ++ rest) (fun _ => True) rest := by
  intro offset
  refine ⟨(), offset + Text.byteLength w, ?_, trivial⟩
  have hw : w.isPrefixOf (w ++ rest) = true := List.isPrefixOf_iff_prefix.mpr ⟨rest, rfl⟩
  simp only [word, hw, List.drop_left, if_true, Cursor.past]

/-- A run is read up to a character without the property. -/
theorem reads_run {p : Char → Bool} {w rest : List Char} (hw : ∀ c ∈ w, p c = true)
    (hr : rest.head?.any p = false) : Reads (run p) (w ++ rest) (· = w) rest := by
  intro offset
  obtain ⟨htext, hall, hend⟩ := run_ok (c := ⟨offset, w ++ rest⟩) (p := p) rfl
  obtain ⟨hsame, hrest⟩ := run_unique hall hw hend hr htext.symm
  exact ⟨_, _, congrArg (fun r => Except.ok (_, Cursor.mk _ r)) hrest, hsame⟩

/-- A run that is not empty is read up to a character without the property. -/
theorem reads_run1 {p : Char → Bool} {w rest : List Char} (hne : w ≠ [])
    (hw : ∀ c ∈ w, p c = true) (hr : rest.head?.any p = false) :
    Reads (run1 p) (w ++ rest) (· = w) rest := by
  obtain ⟨c, cs, rfl⟩ := List.exists_cons_of_ne_nil hne
  refine (reads_satisfy (hw c (by simp)) _).bind ?_
  rintro _ rfl
  refine (reads_run (fun d hd => hw d (by simp [hd])) hr).bind ?_
  rintro _ rfl
  exact .pure _ rfl

/-- A text that starts with a character of a class starts with a run of it. -/
theorem exists_run {p : Char → Bool} (cs : List Char) :
    ∃ w rest, cs = w ++ rest ∧ (∀ c ∈ w, p c = true) ∧ rest.head?.any p = false :=
  ⟨_, _, run_ok (c := ⟨0, cs⟩) (p := p) rfl⟩

end DerivedStats.Grammar
