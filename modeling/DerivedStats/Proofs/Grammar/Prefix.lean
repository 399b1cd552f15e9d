import DerivedStats.Proofs.Grammar.Border
import DerivedStats.Proofs.Grammar.Soundness

/-!
# Prefixes of phrases

Where a parser fails, the text up to there can be completed to a phrase: its tokens start one, and
other tokens make up the rest (`Completes`). The tokens are not quite those of the text as it stands.
The last one may be half of a token that is read as a whole, like the first character of `==` where
one `=` is wanted, or a name in front of a point that does not belong there, or it may be a dimension
value without its end (`Stuck`). But what comes behind the place of the failure can be replaced by
something that no token goes on with, so the tokens can be had (`Stuck.completed`).

`Viable` says this of all failures of a parser, and it passes through the combinators.
-/

namespace DerivedStats.Grammar

open DerivedStats.Grammar.Parser

variable {α β : Type} {L L' : List Token → Prop}

/-! ## Tokens to complete a text with -/

/-- Some word is the token. -/
def Token.IsSpelled (t : Token) : Prop := ∃ w, Spells w t

/-- A symbol is spelled. -/
theorem Token.IsSpelled.symbol {t : Token} {w : List Char} (h : t.symbol? = some w) : t.IsSpelled :=
  ⟨w, .symbol h⟩

/-- Some name is spelled. -/
theorem isSpelled_name : (Token.name none "a").IsSpelled :=
  ⟨['a'], .name ⟨'a', [], rfl, by decide, by simp⟩⟩

theorem isSpelled_quoted : (Token.quoted "*").IsSpelled :=
  ⟨_, .quoted (v := ['*']) (.inl rfl)⟩

/-- In front of a border a word is the token that it spells. -/
theorem Spells.next_border {w r : List Char} {t : Token} (h : Spells w t) (hr : Border r) :
    Next (w ++ r) t r := by
  have hnext : Next (w ++ ([] ++ [])) t ([] ++ []) :=
    ⟨⟨w, h, rfl, fun _ _ => rfl⟩, fun _ _ _ => Nat.zero_le _⟩
  exact hnext.recut (x := []) hr fun _ _ => rfl

/-- Tokens that have words can be written, with spaces between them. -/
theorem exists_text {ts : List Token} (h : ∀ t ∈ ts, t.IsSpelled) :
    ∃ z, Border z ∧ Lexes z ts [] := by
  induction ts with
  | nil => exact ⟨[], .nil, .done rfl⟩
  | cons t ts ih =>
    obtain ⟨z, hborder, hz⟩ := ih fun u hu => h u (by simp [hu])
    obtain ⟨w, hw⟩ := h t (by simp)
    refine ⟨' ' :: (w ++ z), .space _, .token ?_ hz⟩
    have hnext := hw.next_border hborder
    rw [ahead_cons_of_isSpacing rfl, hnext.ahead_eq]
    exact hnext

/-! ## Where reading stops -/

/-- The text between the cursors has the tokens, or it has them once it is completed within the last
one. -/
inductive Stuck (c : Cursor) : List Token → Cursor → Prop where
  /-- The text is made of the tokens. -/
  | between {m : Cursor} {ts : List (Token × Span)} (h : Located c ts m) : Stuck c (ts.map (·.1)) m
  /-- The last token is made of a word that may be read together with what follows. -/
  | behind {m m' : Cursor} {ts : List (Token × Span)} {t : Token} {w : List Char}
      (h : Located c ts m) (word : Between m w m') (hw : Spells w t)
      (hend : m'.rest.head?.any isNameChar = false ∨ ∀ y s, ¬ Spells (y ++ w) (.infinity s)) :
      Stuck c (ts.map (·.1) ++ [t]) m'
  /-- A dimension value is open. -/
  | within {m m' : Cursor} {ts : List (Token × Span)} {v : List Char} (v' : List Char)
      (h : Located c ts m) (word : Between m ('"' :: v) m') (hv : IsValue (v ++ v')) :
      Stuck c (ts.map (·.1) ++ [.quoted (String.ofList (v ++ v'))]) m'

/-- Only a point starts with a point. -/
theorem Token.Heads.eq_point {t : Token} (h : t.Heads '.') : t = .point := by
  cases t with
  | point => rfl
  | number _ | name _ _ | quoted _ => exact absurd h (by simp [Token.Heads] <;> decide)
  | infinity s => cases s <;> exact absurd h (by simp [Token.Heads])
  | operator o =>
    obtain ⟨cs, hcs⟩ := h
    cases o <;> exact absurd hcs (by simp [Token.symbol?, Operator.symbol])
  | _ =>
    obtain ⟨cs, hcs⟩ := h
    exact absurd hcs (by simp [Token.symbol?])

/-- Where tokens reach to, a parser may be stuck. -/
theorem Reached.stuck {c m : Cursor} {ts : List (Token × Span)} (h : Reached c ts m) :
    Stuck c (ts.map (·.1)) m := by
  cases h with
  | located h => exact .between h
  | nan h gap word point =>
    rw [List.map_append]
    refine .behind (h.to_gap gap) word ?_ (.inl (by rw [point]; rfl))
    exact .name ⟨'N', _, rfl, by decide, List.all_eq_true.mp (by decide)⟩

/-- Reading goes on from a place that was reached. -/
theorem Reached.append_stuck {c m c' : Cursor} {ts : List (Token × Span)} {us : List Token}
    (h : Reached c ts m) (h' : Stuck m us c') (hus : us.head? ≠ some .point) :
    Stuck c (ts.map (·.1) ++ us) c' := by
  have hstuck := h.stuck
  cases h with
  | located h =>
    cases h' with
    | between h' =>
      rw [← List.map_append]
      exact .between (h.append h')
    | behind h' word hw hend =>
      rw [← List.append_assoc, ← List.map_append]
      exact .behind (h.append h') word hw hend
    | within v' h' word hv =>
      rw [← List.append_assoc, ← List.map_append]
      exact .within v' (h.append h') word hv
  | nan h gap word point =>
    -- behind the constant there is a point, and no further token
    cases h' with
    | between h' =>
      obtain ⟨rfl, rfl⟩ := h'.eq_nil_of_point point (by simpa using hus)
      simpa using hstuck
    | @behind m' _ vs t w h' word' hw hend =>
      have hvs : (vs.map (·.1)).head? ≠ some .point :=
        fun hvs => hus (by rw [List.head?_append, hvs]; rfl)
      obtain ⟨rfl, rfl⟩ := h'.eq_nil_of_point point hvs
      obtain ⟨d, ds, rfl, hd⟩ := hw.heads
      rw [word'.text] at point
      obtain rfl : d = '.' := Option.some.inj point
      exact absurd (congrArg some hd.eq_point) hus
    | @within m' _ vs v v' h' word' hv =>
      have hvs : (vs.map (·.1)).head? ≠ some .point :=
        fun hvs => hus (by rw [List.head?_append, hvs]; rfl)
      obtain ⟨rfl, rfl⟩ := h'.eq_nil_of_point point hvs
      rw [word'.text] at point
      exact absurd (Option.some.inj point) (by decide)

/-- The text up to where reading stops goes on to a border with the tokens that were read. -/
theorem Stuck.extends {c m : Cursor} {ts : List Token} (h : Stuck c ts m) :
    ∃ w v, Between c w m ∧ ∀ r, Border r → Lexes (w ++ (v ++ r)) ts r := by
  cases h with
  | between h =>
    obtain ⟨w, hw⟩ := h.between
    exact ⟨w, [], hw, fun r hr => (h.recut hw (.nil m) hr (.inl rfl)).lexes⟩
  | behind h word hspells hend =>
    obtain ⟨w, hw⟩ := h.between
    refine ⟨_, [], hw.append word, fun r hr => ?_⟩
    have hcut := (h.recut hw word hr (.inr hend)).lexes
    have hnext := hspells.next_border hr
    rw [List.append_assoc]
    exact hcut.append (.single (hnext.ahead_eq.symm ▸ hnext))
  | @within m _ ts v v' h word hv =>
    -- the rest of the value and its closing quote come first
    obtain ⟨w, hw⟩ := h.between
    refine ⟨_, v' ++ ['"'], hw.append word, fun r _ => ?_⟩
    have hcut := (h.recut hw (.nil m) (.quote (v ++ (v' ++ ('"' :: r)))) (.inl rfl)).lexes
    have hnext : Next ('"' :: ((v ++ v') ++ '"' :: r)) _ r := next_quoted hv
    have htext : '"' :: (v ++ (v' ++ ('"' :: r))) = '"' :: ((v ++ v') ++ ('"' :: r)) := by
      rw [List.append_assoc]
    rw [List.nil_append, htext] at hcut
    have hall := hcut.append (.single (hnext.ahead_eq.symm ▸ hnext))
    simpa using hall

/-! ## Completions -/

/-- The text between the cursors can be completed to a phrase. -/
def Completes (L : List Token → Prop) (c c' : Cursor) : Prop :=
  ∃ ts us, Stuck c ts c' ∧ ts.head? ≠ some .point ∧ L (ts ++ us) ∧ ∀ t ∈ us, t.IsSpelled

namespace Completes

variable {c m c' : Cursor}

/-- A text that can be completed to a phrase has an extension that is one. -/
theorem text (h : Completes L c c') :
    ∃ w z ts, Between c w c' ∧ Lexes (w ++ z) ts [] ∧ L ts := by
  obtain ⟨ts, us, hstuck, -, hL, hus⟩ := h
  obtain ⟨w, v, hw, hv⟩ := hstuck.extends
  obtain ⟨z, hborder, hz⟩ := exists_text hus
  exact ⟨w, v ++ z, ts ++ us, hw, (hv z hborder).append hz, hL⟩

/-- A phrase is completed where nothing of it was read. -/
theorem here (c : Cursor) (us : List Token) (h : L us) (hus : ∀ t ∈ us, t.IsSpelled) :
    Completes L c c :=
  ⟨[], us, .between (.done (.refl c)), by simp, h, hus⟩

/-- What was read before belongs to the phrase. -/
theorem behind {ts : List (Token × Span)} (h : Reached c ts m)
    (hts : (ts.map (·.1)).head? ≠ some .point)
    (h' : Completes (fun us => L (ts.map (·.1) ++ us)) m c') : Completes L c c' := by
  obtain ⟨us, vs, hstuck, hpoint, hL, hvs⟩ := h'
  refine ⟨ts.map (·.1) ++ us, vs, h.append_stuck hstuck hpoint, ?_, ?_, hvs⟩
  · cases ts with
    | nil => exact hpoint
    | cons t ts => exact hts
  · rw [List.append_assoc]
    exact hL

/-- A phrase that is completed can be completed to a longer one. -/
theorem longer (h : Completes L c c') (us : List Token) (hL : ∀ ts, L ts → L' (ts ++ us))
    (hus : ∀ t ∈ us, t.IsSpelled) : Completes L' c c' := by
  obtain ⟨ts, vs, hstuck, hpoint, hlist, hvs⟩ := h
  refine ⟨ts, vs ++ us, hstuck, hpoint, ?_, List.forall_mem_append.mpr ⟨hvs, hus⟩⟩
  rw [← List.append_assoc]
  exact hL _ hlist

/-- What can be completed to a phrase can be completed to any phrase of a larger language. -/
theorem mono (h : Completes L c c') (hL : ∀ ts, L ts → L' ts) : Completes L' c c' :=
  h.longer [] (fun ts hts => by rw [List.append_nil]; exact hL ts hts) (by simp)

end Completes

/-! ## How a combinator fails -/

/-- A sequence fails in its first step, or in the second one behind it. -/
theorem bind_error {p : Parser α} {q : α → Parser β} {c : Cursor} {f : Failure}
    (h : (p >>= q) c = .error f) :
    p c = .error f ∨ ∃ a m, p c = .ok (a, m) ∧ q a m = .error f := by
  rw [bind_apply] at h
  cases hp : p c with
  | error f' =>
    rw [hp] at h
    exact .inl (congrArg Except.error (Except.error.inj h))
  | ok r =>
    rw [hp] at h
    exact .inr ⟨r.1, r.2, rfl, h⟩

/-- A changed failure comes from a failure of the parser. -/
theorem mapFailure_error {g : Failure → Failure} {p : Parser α} {c : Cursor} {f : Failure}
    (h : p.mapFailure g c = .error f) : ∃ f', p c = .error f' ∧ f = g f' := by
  unfold Parser.mapFailure at h
  cases hp : p c with
  | error f' =>
    rw [hp] at h
    exact ⟨f', rfl, (Except.error.inj h).symm⟩
  | ok r =>
    rw [hp] at h
    exact nomatch h

/-- A choice fails like its last alternative, unless another one is final. -/
theorem orElse_error {p q : Parser α} {c : Cursor} {f : Failure} (h : (p <|> q) c = .error f) :
    (p c = .error f ∧ f.final = true) ∨ ((∃ f', p c = .error f') ∧ q c = .error f) := by
  rw [orElse_apply] at h
  cases hp : p c with
  | ok r =>
    rw [hp] at h
    exact nomatch h
  | error f' =>
    rw [hp] at h
    simp only at h
    split at h
    · next hfinal =>
      obtain rfl := Except.error.inj h
      exact .inl ⟨rfl, hfinal⟩
    · exact .inr ⟨⟨f', rfl⟩, h⟩

theorem optional_error {p : Parser α} {c : Cursor} {f : Failure}
    (h : Parser.optional p c = .error f) : p c = .error f := by
  unfold Parser.optional at h
  cases hp : p c with
  | ok r =>
    rw [hp] at h
    exact nomatch h
  | error f' =>
    rw [hp] at h
    simp only at h
    split at h
    · exact congrArg Except.error (Except.error.inj h)
    · exact nomatch h

theorem spanned_error {p : Parser (Span → Expr)} {c : Cursor} {f : Failure}
    (h : spanned p c = .error f) : p c = .error f := by
  rcases bind_error h with h | ⟨_, m, hoffset, h⟩
  · exact nomatch h
  obtain ⟨rfl, rfl⟩ := Prod.mk.inj (Except.ok.inj hoffset)
  rcases bind_error h with h | ⟨_, m', -, h⟩
  · exact h
  · exact nomatch h

/-! ## Parsers that fail where they start -/

/-- The parser fails nowhere but at its cursor. -/
def Local (p : Parser α) : Prop := ∀ c f, p c = .error f → f.place = c

/-- The parser never fails. -/
def Total (p : Parser α) : Prop := ∀ c f, p c ≠ .error f

/-- A local parser stays local if it is followed by parsers that never fail. -/
theorem Local.bind {p : Parser α} {q : α → Parser β} (hp : Local p) (hq : ∀ a, Total (q a)) :
    Local (p >>= q) := by
  intro c f h
  rcases bind_error h with h | ⟨a, m, -, h⟩
  · exact hp c f h
  · exact absurd h (hq a m f)

/-- A changed failure at the same place is local. -/
theorem Local.mapFailure {p : Parser α} {g : Failure → Failure} (hp : Local p)
    (hg : ∀ f, (g f).place = f.place) : Local (p.mapFailure g) := by
  intro c f h
  obtain ⟨f', hf, rfl⟩ := mapFailure_error h
  rw [hg]
  exact hp c f' hf

theorem Local.expecting {p : Parser α} {x : Expectation} (hp : Local p) : Local (expecting x p) :=
  hp.mapFailure fun _ => rfl

theorem Local.orElse {p q : Parser α} (hp : Local p) (hq : Local q) : Local (p <|> q) := by
  intro c f h
  rcases orElse_error h with ⟨h, -⟩ | ⟨-, h⟩
  · exact hp c f h
  · exact hq c f h

theorem local_fail : Local (fail : Parser α) := by
  intro c f h
  rw [← Except.error.inj h]

theorem local_satisfy (p : Char → Bool) : Local (satisfy p) := by
  intro c f h
  unfold satisfy at h
  split at h
  · split at h
    · exact nomatch h
    · exact local_fail c f h
  · exact local_fail c f h

theorem local_endOfText : Local endOfText := by
  intro c f h
  unfold endOfText at h
  split at h
  · exact nomatch h
  · exact local_fail c f h

theorem Total.bind {p : Parser α} {q : α → Parser β} (hp : Total p) (hq : ∀ a, Total (q a)) :
    Total (p >>= q) := by
  intro c f h
  rcases bind_error h with h | ⟨a, m, -, h⟩
  · exact hp c f h
  · exact hq a m f h

theorem total_pure (a : α) : Total (pure a : Parser α) := fun _ _ h => nomatch h

theorem total_run (p : Char → Bool) : Total (run p) := fun _ _ h => nomatch h

theorem total_offset : Total offset := fun _ _ h => nomatch h

theorem total_remaining : Total remaining := fun _ _ h => nomatch h

theorem total_signs : Total signs := fun _ _ h => nomatch h

theorem total_spacing : Total spacing := (total_run _).bind fun _ => total_pure _

/-- Looking for an operator never fails. -/
theorem total_operatorOf (os : List Operator) : Total (operatorOf os) := by
  intro c f h
  obtain ⟨r, hr⟩ := operatorOf_succeeds os c
  exact nomatch hr.symm.trans h

/-- A phrase that is not there can be left out. -/
theorem Mild.total_optional {p : Parser α} (hp : Mild p) : Total (Parser.optional p) := by
  intro c f h
  obtain ⟨r, hr⟩ := hp.optional_succeeds c
  exact nomatch hr.symm.trans h

/-- Spacing does not fail, and what comes behind it starts at a gap. -/
theorem bind_spacing_error {q : Unit → Parser α} {c : Cursor} {f : Failure}
    (h : (spacing >>= q) c = .error f) : ∃ m, Gap c m ∧ q () m = .error f := by
  rcases bind_error h with h | ⟨_, m, hspace, h⟩
  · exact absurd h (total_spacing c f)
  · exact ⟨m, spacing_gap hspace, h⟩

theorem local_character (x : Char) : Local (character x) :=
  (local_satisfy _).bind fun _ => total_pure _

theorem local_expectedCharacter (x : Char) : Local (expectedCharacter x) :=
  (local_character x).expecting

theorem local_run1 (p : Char → Bool) : Local (run1 p) :=
  (local_satisfy p).bind fun _ => (total_run p).bind fun _ => total_pure _

theorem local_identifier : Local identifier :=
  (local_satisfy _).bind fun _ => (total_run _).bind fun _ => total_pure _

/-- A qualified name fails at its first character, for the part behind the point is optional. -/
theorem local_qualifiedName : Local qualifiedName := by
  have hname : Mild (do character '.'; identifier) :=
    (mild_character _).bind fun _ => mild_identifier
  refine local_identifier.bind fun first => hname.total_optional.bind fun o => ?_
  cases o with
  | none => exact total_pure _
  | some name => exact total_pure _

theorem local_dimensionValue : Local dimensionValue :=
  Local.orElse ((local_character _).bind fun _ => total_pure _)
    ((local_run1 _).bind fun _ => total_pure _)

/-! ## Viable parsers -/

/-- Where the parser fails, the text up to there can be completed to a phrase. -/
def Viable (p : Parser α) (L : List Token → Prop) : Prop :=
  ∀ c f, p c = .error f → Completes L c f.place

/-- A parser that never fails is viable. -/
theorem Total.viable {p : Parser α} (hp : Total p) : Viable p L :=
  fun c f h => absurd h (hp c f)

/-- A local parser is viable if there is some phrase. -/
theorem Local.viable {p : Parser α} (hp : Local p) (us : List Token) (h : L us)
    (hus : ∀ t ∈ us, t.IsSpelled) : Viable p L := by
  intro c f hf
  rw [hp c f hf]
  exact .here c us h hus

namespace Viable

variable {p : Parser α}

/-- A viable parser is viable for any larger language. -/
theorem mono (h : Viable p L) (hL : ∀ ts, L ts → L' ts) : Viable p L' :=
  fun c f hf => (h c f hf).mono hL

/-- A parser is viable for longer phrases if the rest of them can be spelled. -/
theorem longer (h : Viable p L) (us : List Token) (hL : ∀ ts, L ts → L' (ts ++ us))
    (hus : ∀ t ∈ us, t.IsSpelled) : Viable p L' :=
  fun c f hf => (h c f hf).longer us hL hus

/-- What the second parser reads belongs to a phrase that starts with what the first one reads. -/
theorem bind {q : α → Parser β} {R : List (Token × Span) → α → Prop} (hp : Viable p L)
    (hsound : Sound p R) (hpoint : ∀ ts a, R ts a → (ts.map (·.1)).head? ≠ some .point)
    (hq : ∀ a, Viable (q a) fun us => ∀ ts, R ts a → L (ts.map (·.1) ++ us)) : Viable (p >>= q) L := by
  intro c f h
  rcases bind_error h with h | ⟨a, m, hok, h⟩
  · exact hp c f h
  · obtain ⟨ts, hts, hR⟩ := hsound c a m hok
    exact .behind hts (hpoint ts a hR) ((hq a m f h).mono fun us hus => hus ts hR)

/-- What follows may be any parser that never fails. -/
theorem bind_total {q : α → Parser β} (hp : Viable p L) (hq : ∀ a, Total (q a)) :
    Viable (p >>= q) L := by
  intro c f h
  rcases bind_error h with h | ⟨a, m, -, h⟩
  · exact hp c f h
  · exact absurd h (hq a m f)

theorem mapFailure {g : Failure → Failure} (hp : Viable p L) (hg : ∀ f, (g f).place = f.place) :
    Viable (p.mapFailure g) L := by
  intro c f h
  obtain ⟨f', hf, rfl⟩ := mapFailure_error h
  rw [hg]
  exact hp c f' hf

theorem optional (hp : Viable p L) : Viable (Parser.optional p) L :=
  fun c f h => hp c f (optional_error h)

theorem spanned {p : Parser (Span → Expr)} (hp : Viable p L) : Viable (spanned p) L :=
  fun c f h => hp c f (spanned_error h)

/-- Spacing belongs to every phrase. -/
theorem behind_spacing (hp : Viable p L) : Viable (do spacing; p) L := by
  intro c f h
  obtain ⟨m, hgap, h⟩ := bind_spacing_error h
  have hreached : Reached c [] m := .located (.done hgap)
  exact .behind hreached (by simp) (hp m f h)

end Viable

end DerivedStats.Grammar
