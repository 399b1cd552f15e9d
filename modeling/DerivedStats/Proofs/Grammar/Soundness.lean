import DerivedStats.Proofs.Grammar.Advance
import DerivedStats.Proofs.Grammar.Placement

/-!
# What the parsers read is in the language

Every parser of the grammar reads tokens that form a phrase, and answers the tree of that phrase with
its spans (`Sound`). There is one catch: the constant `NaN` is read even if a point and a name follow,
which make one token together with it (`Reached`). The grammar goes on nowhere with a point, so
wherever reading goes on the tokens are those of the text.

Main results: `expression_sound`, `complete_sound`, `soleMention_ok`, `assignment_ok`.
-/

namespace DerivedStats.Grammar

open DerivedStats.Grammar.Parser

variable {α : Type}

/-- The text between the cursors is made of the tokens, but for the constant in front of a point. -/
inductive Reached : Cursor → List (Token × Span) → Cursor → Prop where
  | located {c c' : Cursor} {ts : List (Token × Span)} (h : Located c ts c') : Reached c ts c'
  | nan {c m m' c' : Cursor} {ts : List (Token × Span)} (h : Located c ts m) (gap : Gap m m')
      (word : Between m' "NaN".toList c') (point : c'.rest.head? = some '.') :
      Reached c (ts ++ [(.name none "NaN", ⟨m'.offset, c'.offset⟩)]) c'

/-- Only a point starts with a point. -/
theorem Next.head_ne_point {cs rest : List Char} {t : Token} (h : Next cs t rest)
    (ht : t ≠ .point) : cs.head? ≠ some '.' := by
  intro hcs
  obtain ⟨r, rfl⟩ := List.head?_eq_some_iff.mp hcs
  have hpoint : Next ('.' :: r) .point r :=
    next_character rfl (fun h => absurd h (by decide)) fun h => absurd h (by decide)
  exact ht (h.unique hpoint).1

/-- In front of a point nothing is read but the point. -/
theorem Located.eq_nil_of_point {c c' : Cursor} {ts : List (Token × Span)} (h : Located c ts c')
    (point : c.rest.head? = some '.') (hts : (ts.map (·.1)).head? ≠ some .point) :
    ts = [] ∧ c = c' := by
  have hspace : c.rest.head?.any isSpacing = false := by
    rw [point]
    decide
  cases h with
  | done gap => exact ⟨rfl, gap.eq_of_head hspace⟩
  | token gap word next more =>
    obtain rfl := gap.eq_of_head hspace
    exact absurd point (next.head_ne_point fun ht => hts (by rw [ht]; rfl))

namespace Reached

variable {c m c' : Cursor} {ts us : List (Token × Span)}

/-- Unless a point follows, the tokens that reach to a place are those of the text. -/
theorem strict (h : Reached c ts c') (hpoint : c'.rest.head? ≠ some '.') : Located c ts c' := by
  cases h with
  | located h => exact h
  | nan h gap word point => exact absurd point hpoint

/-- Tokens that follow tokens reach on. -/
theorem behind (h : Located c ts m) (h' : Reached m us c') : Reached c (ts ++ us) c' := by
  cases h' with
  | located h' => exact .located (h.append h')
  | nan h' gap word point =>
    rw [← List.append_assoc]
    exact .nan (h.append h') gap word point

/-- Reading goes on with any token but a point. -/
theorem append (h : Reached c ts m) (h' : Reached m us c')
    (hus : (us.map (·.1)).head? ≠ some .point) : Reached c (ts ++ us) c' := by
  cases h with
  | located h => exact .behind h h'
  | nan h gap word point =>
    cases h' with
    | located h' =>
      obtain ⟨rfl, rfl⟩ := h'.eq_nil_of_point point hus
      rw [List.append_nil]
      exact .nan h gap word point
    | @nan m₁ m₁' _ vs h' gap' word' point' =>
      have hvs : (vs.map (·.1)).head? ≠ some .point := by
        cases vs with
        | nil => simp
        | cons v vs => exact hus
      obtain ⟨rfl, rfl⟩ := h'.eq_nil_of_point point hvs
      obtain rfl := gap'.eq_of_head (by rw [point]; decide)
      rw [word'.text] at point
      exact absurd point (by simp)

/-- A token behind what is read closes it. -/
theorem closed {t : Token × Span} (h : Reached c ts m) (h' : Located m [t] c')
    (ht : t.1 ≠ .point) : Located c (ts ++ [t]) c' := by
  have hpoint : m.rest.head? ≠ some '.' := by
    intro hpoint
    cases h' with
    | token gap word next more =>
      obtain rfl := gap.eq_of_head (by rw [hpoint]; decide)
      exact next.head_ne_point ht hpoint
  exact (h.strict hpoint).append h'

theorem to_gap (h : Reached c ts m) (gap : Gap m c') : Reached c ts c' :=
  (List.append_nil ts) ▸ h.append (.located (.done gap)) (by simp)

theorem ordered (h : Reached c ts c') : Ordered c.offset ts c'.offset := by
  cases h with
  | located h => exact h.ordered
  | @nan m m' _ us h gap word point =>
    have hgap := (Located.done gap).ordered
    refine ordered_append.mpr ⟨m.offset, h.ordered, hgap, ?_, Nat.le_refl _⟩
    show m'.offset < c'.offset
    rw [word.offset]
    exact Nat.lt_add_of_pos_right (by decide)

/-- Where no spacing stands, the first token starts. -/
theorem heads {t : Token × Span} (h : Reached c (t :: ts) c')
    (hspace : c.rest.head?.any isSpacing = false) : ∃ d ds, c.rest = d :: ds ∧ t.1.Heads d := by
  have hfirst : ∀ {us : List (Token × Span)} {m : Cursor}, Located c (t :: us) m →
      ∃ d ds, c.rest = d :: ds ∧ t.1.Heads d := by
    intro us m h
    cases h with
    | token gap word next more =>
      obtain rfl := gap.eq_of_head hspace
      exact next.starts.heads
  generalize hts : t :: ts = all at h
  cases h with
  | located h => exact hfirst (hts ▸ h)
  | @nan _ m' _ us h gap word point =>
    cases us with
    | nil =>
      obtain ⟨rfl, -⟩ := List.cons.inj hts
      cases h with
      | done gap' =>
        obtain rfl := (gap'.trans gap).eq_of_head hspace
        exact ⟨'N', _, word.text, rfl⟩
    | cons u us =>
      obtain ⟨rfl, -⟩ := List.cons.inj hts
      exact hfirst h

end Reached

/-- What the parser reads is made of tokens that are related to its value. -/
def Sound (p : Parser α) (R : List (Token × Span) → α → Prop) : Prop :=
  ∀ c a c', p c = .ok (a, c') → ∃ ts, Reached c ts c' ∧ R ts a

theorem Sound.mapFailure {p : Parser α} {R : List (Token × Span) → α → Prop}
    {g : Failure → Failure} (h : Sound p R) : Sound (p.mapFailure g) R :=
  fun c a c' hok => h c a c' (mapFailure_ok hok)

/-- A phrase that may be left out. -/
theorem Sound.optional {p : Parser α} {R : List (Token × Span) → α → Prop} (h : Sound p R) :
    Sound (Parser.optional p) fun ts o => o.elim (ts = []) (R ts) := by
  intro c o c' hok
  rcases optional_ok hok with ⟨a, rfl, ha⟩ | ⟨rfl, rfl, -⟩
  · exact h c a c' ha
  · exact ⟨[], .located (.done (.refl _)), rfl⟩

/-! ## Characters between phrases -/

/-- Where no point comes next, behind spacing or not, the text does not start with one. -/
theorem head_ne_point {cs : List Char} (h : (ahead cs).head? ≠ some '.') : cs.head? ≠ some '.' := by
  intro hcs
  obtain ⟨r, rfl⟩ := List.head?_eq_some_iff.mp hcs
  exact h rfl

/-- What stands in front of a character that no name holds does not start with one that a name
holds. -/
theorem head_not_isNameChar {cs r : List Char} {x : Char} (h : ahead cs = x :: r)
    (hx : isNameChar x = false) : cs.head?.any isNameChar = false := by
  cases cs with
  | nil => rfl
  | cons c cs =>
    cases hc : isSpacing c with
    | true =>
      cases hname : isNameChar c with
      | false => simpa using hname
      | true => exact absurd hc (by simp [not_isSpacing_of_isNameChar hname])
    | false =>
      rw [ahead_of_head (by simpa using hc)] at h
      obtain ⟨rfl, -⟩ := List.cons.inj h
      simpa using hx

/-- A symbol of one character, behind spacing or not. -/
theorem Lexes.character {cs r : List Char} {t : Token} {x : Char} (h : ahead cs = x :: r)
    (hx : t.symbol? = some [x]) (hplain : x ∉ ['+', '-', '=', '<', '>']) : Lexes cs [t] r := by
  refine .single ?_
  rw [h]
  refine next_character hx (fun hs => absurd ?_ hplain) fun hs => absurd ?_ hplain
  · rcases hs with rfl | rfl <;> simp
  · rcases hs with rfl | rfl | rfl <;> simp

/-- In front of a gap and a character there stands the gap and then the character. -/
theorem ahead_of_between {c m c' : Cursor} {x : Char} (gap : Gap c m) (h : Between m [x] c')
    (hx : isSpacing x = false) : ahead c.rest = x :: c'.rest := by
  rw [gap.ahead_eq, h.text]
  exact ahead_of_head hx

/-- A name in front of one of these characters is a whole token, and so is the character. -/
theorem Located.name_character {c m m' c' : Cursor} {t : Token} {x : Char} {w : List Char}
    (hw : IsName w) (word : Between c w m) (gap : Gap m m') (h : Between m' [x] c')
    (hx : t.symbol? = some [x]) (hends : x = ':' ∨ x = '(') :
    Located c [(.name none (String.ofList w), ⟨c.offset, m.offset⟩), (t, ⟨m'.offset, c'.offset⟩)]
      c' := by
  have hahead : ahead m.rest = x :: c'.rest :=
    ahead_of_between gap h (by rcases hends with rfl | rfl <;> decide)
  have hend : m.rest.head?.any isNameChar = false :=
    head_not_isNameChar hahead (by rcases hends with rfl | rfl <;> decide)
  have hpoint : m.rest.head? ≠ some '.' := by
    refine head_ne_point ?_
    rw [hahead]
    rcases hends with rfl | rfl <;> simp
  have hname : Next c.rest (.name none (String.ofList w)) m.rest := by
    rw [word.text]
    exact next_name hw hend fun d ds hd => absurd (by rw [hd]; rfl) hpoint
  exact Located.append (.single (.refl c) word hname)
    (.character gap h hx (by rcases hends with rfl | rfl <;> decide))

/-! ## Phrases with commas between them -/

/-- An item behind a comma. -/
theorem commaItem_sound {item : Parser α} {R : List (Token × Span) → α → Prop} (h : Sound item R) :
    Sound (do spacing; character ','; item) fun ts a => ∃ s us, ts = (.comma, s) :: us ∧ R us a := by
  intro c a c' hok
  obtain ⟨_, m₁, hspace, hok⟩ := bind_ok hok
  obtain ⟨_, m₂, hcomma, hok⟩ := bind_ok hok
  obtain ⟨ts, hts, hR⟩ := h _ _ _ hok
  have hcomma : Located c [(.comma, ⟨m₁.offset, m₂.offset⟩)] m₂ :=
    .character (spacing_gap hspace) (character_between hcomma) rfl (by decide)
  exact ⟨_, .behind hcomma hts, _, ts, rfl, hR⟩

/-- The items that are read stand on the tokens of the row, each behind a comma. -/
theorem furtherItems_sound {item : Parser α} {R : List (Token × Span) → α → Prop}
    (h : Sound item R) {budget : Nat} {c c' : Cursor} {as : List α}
    (hok : furtherItems item budget c = .ok (as, c')) :
    ∃ parts : List (Part α), as = parts.map (·.value) ∧ (∀ p ∈ parts, R p.tokens p.value)
      ∧ Reached c (row .comma parts) c' := by
  induction budget generalizing c as with
  | zero =>
    obtain ⟨rfl, rfl⟩ := Prod.mk.inj (pure_ok hok)
    exact ⟨[], rfl, by simp, .located (.done (.refl _))⟩
  | succ budget ih =>
    obtain ⟨o, mid, ho, hok⟩ := bind_ok hok
    rcases optional_ok ho with ⟨a, rfl, ha⟩ | ⟨rfl, rfl, -⟩
    · obtain ⟨more, mid', hmore, hok⟩ := bind_ok hok
      obtain ⟨rfl, rfl⟩ := Prod.mk.inj (pure_ok hok)
      obtain ⟨parts, rfl, hparts, hrow⟩ := ih hmore
      obtain ⟨_, hts, s, ts, rfl, hR⟩ := commaItem_sound h _ _ _ ha
      exact ⟨⟨s, ts, a⟩ :: parts, rfl, List.forall_mem_cons.mpr ⟨hR, hparts⟩,
        hts.append hrow (by cases parts <;> simp [row])⟩
    · obtain ⟨rfl, rfl⟩ := Prod.mk.inj (pure_ok hok)
      exact ⟨[], rfl, by simp, .located (.done (.refl _))⟩

/-- Phrases with commas between them: a first one, and further ones behind commas. -/
theorem commaSeparated_sound {item : Parser α} {R : List (Token × Span) → α → Prop}
    (h : Sound item R) :
    Sound (commaSeparated item) fun ts as => ∃ us a, ∃ parts : List (Part α), R us a
      ∧ (∀ p ∈ parts, R p.tokens p.value) ∧ as = a :: parts.map (·.value)
      ∧ ts = us ++ row .comma parts := by
  intro c as c' hok
  obtain ⟨a, mid, ha, hok⟩ := bind_ok hok
  obtain ⟨n, mid', hn, hok⟩ := bind_ok hok
  obtain ⟨-, rfl⟩ := Prod.mk.inj (Except.ok.inj hn)
  obtain ⟨more, mid'', hmore, hok⟩ := bind_ok hok
  obtain ⟨rfl, rfl⟩ := Prod.mk.inj (pure_ok hok)
  obtain ⟨parts, rfl, hparts, hrow⟩ := furtherItems_sound h hmore
  obtain ⟨us, hus, hR⟩ := h _ _ _ ha
  exact ⟨_, hus.append hrow (by cases parts <;> simp [row]), us, a, parts, hR, hparts, rfl, rfl⟩

/-! ## Mentions -/

/-- Where a name token stands, its first name can be read as a keyword. -/
theorem Next.first_name {cs rest : List Char} {k : Option String} {n : String}
    (h : Next cs (.name k n) rest) :
    ∃ r, cs = (k.getD n).toList ++ r ∧ r.head?.any isNameChar = false := by
  cases k with
  | none =>
    obtain ⟨w, -, rfl, rfl, hend, -⟩ := h.name
    exact ⟨rest, by simp, hend⟩
  | some c =>
    obtain ⟨w, w', -, -, rfl, rfl, rfl, -⟩ := h.qualified
    exact ⟨'.' :: (w' ++ rest), by simp, rfl⟩

/-- What is read as a dimension has its tokens. -/
theorem dimension_sound : Sound dimension fun ts d => ts.map (·.1) = d.tokens := by
  intro c d c' hok
  obtain ⟨key, m₁, hkey, hok⟩ := bind_ok (mapFailure_ok hok)
  obtain ⟨_, m₂, hspace, hok⟩ := bind_ok hok
  obtain ⟨_, m₃, hcolon, hok⟩ := bind_ok hok
  obtain ⟨_, m₄, hspace', hok⟩ := bind_ok hok
  obtain ⟨_, m₅, hopen, hok⟩ := bind_ok hok
  obtain ⟨value, m₆, hvalue, hok⟩ := bind_ok hok
  obtain ⟨_, m₇, hclose, hok⟩ := bind_ok hok
  obtain ⟨rfl, rfl⟩ := Prod.mk.inj (pure_ok hok)
  obtain ⟨w, hw, rfl, hword, -⟩ := identifier_between (mapFailure_ok hkey)
  obtain ⟨v, hv, rfl, hword'⟩ := dimensionValue_between (mapFailure_ok hvalue)
  have hname : Located c _ m₃ := .name_character (t := .colon) hw hword (spacing_gap hspace)
    (expectedCharacter_between hcolon) rfl (.inl rfl)
  have hopen := expectedCharacter_between hopen
  have hclose := expectedCharacter_between hclose
  have hquoted : Next m₄.rest (.quoted (String.ofList v)) c'.rest := by
    rw [hopen.text, hword'.text, hclose.text]
    exact next_quoted hv
  have hvalue : Located m₃ _ c' :=
    .single (spacing_gap hspace') ((hopen.append hword').append hclose) hquoted
  exact ⟨_, .located (hname.append hvalue), rfl⟩

/-- The braces of a clause are its first and its last token. -/
theorem dimensionClause_ok {c c' : Cursor} {ds : List Dimension}
    (hok : dimensionClause c = .ok (ds, c')) :
    ∃ (s s' : Span) (ts : List (Token × Span)), s'.stop = c'.offset
      ∧ Located c ((.openBrace, s) :: (ts ++ [(.closeBrace, s')])) c'
      ∧ ts.map (·.1) = List.intercalate [.comma] (ds.map Dimension.tokens) ∧ ds ≠ [] := by
  obtain ⟨_, m₁, hopen, hok⟩ := bind_ok hok
  obtain ⟨es, m₂, hes, hok⟩ := bind_ok hok
  obtain ⟨_, m₃, hclose, hok⟩ := bind_ok hok
  obtain ⟨rfl, rfl⟩ := Prod.mk.inj (pure_ok hok)
  obtain ⟨_, m₄, hspace, hclose⟩ := bind_ok (mapFailure_ok hclose)
  have hitem : Sound (do spacing; dimension) fun ts d => ts.map (·.1) = d.tokens := by
    intro c d c' hok
    obtain ⟨_, m, hspace, hok⟩ := bind_ok hok
    obtain ⟨ts, hts, hd⟩ := dimension_sound _ _ _ hok
    exact ⟨ts, .behind (.done (spacing_gap hspace)) hts, hd⟩
  obtain ⟨ts, hts, us, d, parts, hd, hparts, rfl, rfl⟩ :=
    commaSeparated_sound hitem _ _ _ (mapFailure_ok hes)
  have hopen' : Located c [(.openBrace, ⟨c.offset, m₁.offset⟩)] m₁ :=
    .character (.refl c) (character_between hopen) rfl (by decide)
  have hclose' : Located m₂ [(.closeBrace, ⟨m₄.offset, c'.offset⟩)] c' :=
    .character (spacing_gap hspace) (expectedCharacter_between hclose) rfl (by decide)
  have hmap : (row .comma parts).map (·.1) =
      ((parts.map (·.value)).map Dimension.tokens).flatMap ([.comma] ++ ·) := by
    rw [map_row_comma, List.map_map]
    exact congrArg (List.flatMap _) (List.map_congr_left fun p hp => hparts p hp)
  refine ⟨⟨c.offset, m₁.offset⟩, ⟨m₄.offset, c'.offset⟩, us ++ row .comma parts, rfl,
    hopen'.append ?_, ?_, by simp⟩
  · exact hts.closed hclose' (by simp)
  · rw [List.map_append, hd, hmap, List.map_cons, intercalate_cons]

/-- A statistic is read in its place, and its span is that of its tokens. -/
theorem mention_ok {c c' : Cursor} {m : Mention} {span : Span}
    (h : mention c = .ok ((m, span), c')) :
    ∃ ts, Located c ts c' ∧ ts.map (·.1) = m.tokens ∧ span = extent ts
      ∧ ∃ rest, Next c.rest (.name m.category m.name) rest := by
  obtain ⟨_, _, hstart, h⟩ := bind_ok (mapFailure_ok h)
  obtain ⟨rfl, rfl⟩ := Prod.mk.inj (Except.ok.inj hstart)
  obtain ⟨⟨k, n⟩, mid, hname, h⟩ := bind_ok h
  obtain ⟨o, mid', ho, h⟩ := bind_ok h
  obtain ⟨_, _, hstop, h⟩ := bind_ok h
  obtain ⟨rfl, rfl⟩ := Prod.mk.inj (Except.ok.inj hstop)
  obtain ⟨hm, rfl⟩ := Prod.mk.inj (pure_ok h)
  obtain ⟨rfl, rfl⟩ := Prod.mk.inj hm
  have hnext := qualifiedName_ok hname
  have hlocated := advances_qualifiedName.located hname hnext
  rcases optional_ok ho with ⟨ds, rfl, hds⟩ | ⟨rfl, rfl, -⟩
  · obtain ⟨_, m₁, hspace, hds⟩ := bind_ok hds
    obtain ⟨s, s', ts, hstop, hclause, hts, hne⟩ := dimensionClause_ok hds
    refine ⟨_, hlocated.append (hclause.of_gap (spacing_gap hspace)), ?_, ?_, _, hnext⟩
    · simp [Mention.tokens, hne, hts]
    · rw [List.singleton_append, ← List.cons_append, extent_enclosed, hstop]
  · exact ⟨_, hlocated, by simp [Mention.tokens], rfl, _, hnext⟩

/-! ## Operands -/

variable {nested : Parser Expr}

/-- What is read between parentheses is placed on a group. -/
theorem parenthesized_sound (h : Sound nested (Placed 1)) :
    Sound (parenthesized nested) (Placed 9) := by
  intro c e c' hok
  obtain ⟨node, hnode, rfl⟩ := spanned_ok hok
  obtain ⟨_, m₁, hopen, hok⟩ := bind_ok hnode
  obtain ⟨inner, m₂, hinner, hok⟩ := bind_ok (mapFailure_ok hok)
  obtain ⟨_, m₃, hspace, hok⟩ := bind_ok hok
  obtain ⟨_, m₄, hclose, hok⟩ := bind_ok hok
  obtain ⟨rfl, rfl⟩ := Prod.mk.inj (pure_ok hok)
  have hopen' : Located c [(.openParen, ⟨c.offset, m₁.offset⟩)] m₁ :=
    .character (.refl c) (character_between hopen) rfl (by decide)
  have hclose' : Located m₂ [(.closeParen, ⟨m₃.offset, c'.offset⟩)] c' :=
    .character (spacing_gap hspace) (expectedCharacter_between hclose) rfl (by decide)
  obtain ⟨ts, hts, hplaced⟩ := h _ _ _ hinner
  refine ⟨_, .located (hopen'.append (hts.closed hclose' (by simp))), ?_⟩
  have hgroup : Placed 9 ((.openParen, ⟨c.offset, m₁.offset⟩)
      :: (ts ++ [(.closeParen, ⟨m₃.offset, c'.offset⟩)])) _ := .group (Nat.le_refl 9) hplaced rfl
  rwa [extent_enclosed] at hgroup

/-- The name of an aggregate with an opening parenthesis behind it is a whole name. -/
theorem aggregateName_located {c m₁ m₂ m₃ : Cursor} {a : Aggregate} {u : Unit}
    (ha : aggregateName c = .ok (a, m₁)) (gap : Gap m₁ m₂)
    (hopen : character '(' m₂ = .ok (u, m₃)) :
    Located c [(.name none a.name, ⟨c.offset, m₁.offset⟩), (.openParen, ⟨m₂.offset, m₃.offset⟩)]
      m₃ := by
  obtain ⟨w, hw⟩ := advances_aggregateName _ _ _ ha
  obtain rfl : w = a.name.toList :=
    List.append_cancel_right (hw.text.symm.trans (aggregateName_ok ha))
  have hname : Located c _ m₃ := .name_character (t := .openParen) (isName_aggregate a) hw gap
    (character_between hopen) rfl (.inr rfl)
  rwa [String.ofList_toList] at hname

/-- What is read as a call is placed on the name of the aggregate and the arguments. -/
theorem call_sound (h : Sound nested (Placed 1)) : Sound (call nested) (Placed 9) := by
  intro c e c' hok
  obtain ⟨node, hnode, rfl⟩ := spanned_ok (mapFailure_ok hok)
  obtain ⟨a, m₁, ha, hok⟩ := bind_ok hnode
  obtain ⟨_, m₂, hspace, hok⟩ := bind_ok hok
  obtain ⟨_, m₃, hopen, hok⟩ := bind_ok hok
  obtain ⟨es, m₄, hes, hok⟩ := bind_ok (mapFailure_ok hok)
  obtain ⟨_, m₅, hspace', hok⟩ := bind_ok hok
  obtain ⟨_, m₆, hclose, hok⟩ := bind_ok hok
  obtain ⟨rfl, rfl⟩ := Prod.mk.inj (pure_ok hok)
  have hclose' : Located m₄ [(.closeParen, ⟨m₅.offset, c'.offset⟩)] c' :=
    .character (spacing_gap hspace') (expectedCharacter_between hclose) rfl (by decide)
  obtain ⟨ts, hts, us, e, parts, he, hparts, rfl, rfl⟩ :=
    commaSeparated_sound h _ _ _ (mapFailure_ok hes)
  have hhead := aggregateName_located ha (spacing_gap hspace) hopen
  refine ⟨_, .located (hhead.append (hts.closed hclose' (by simp))), ?_⟩
  have hall : ∀ p ∈ (⟨⟨m₂.offset, m₃.offset⟩, us, e⟩ : Part Expr) :: parts,
      Placed 1 p.tokens p.value := List.forall_mem_cons.mpr ⟨he, hparts⟩
  have hcall : Placed 9 ((.name none a.name, ⟨c.offset, m₁.offset⟩)
      :: (row .openParen (⟨⟨m₂.offset, m₃.offset⟩, us, e⟩ :: parts)
        ++ [(.closeParen, ⟨m₅.offset, c'.offset⟩)])) _ :=
    .call (Nat.le_refl 9) (List.cons_ne_nil _ _) hall rfl
  rw [extent_enclosed] at hcall
  simpa [row] using hcall

/-- Where the constant is not read, no name starts with it. -/
theorem Next.firstName_ne_nan {c : Cursor} {rest : List Char} {m : Mention} {failure : Failure}
    (h : Next c.rest (.name m.category m.name) rest)
    (hno : spanned (do keyword "NaN"; return fun span => .literal span Number.nan) c
      = .error failure) : m.firstName ≠ "NaN" := by
  intro hnan
  obtain ⟨r, htext, hend⟩ := h.first_name
  have hread : Reads (spanned do keyword "NaN"; return fun span => .literal span Number.nan) c.rest
      (fun _ => True) r := by
    refine Reads.spanned ?_
    rw [htext, show m.category.getD m.name = "NaN" from hnan]
    exact (reads_keyword hend).bind fun _ _ => .pure _ fun _ => trivial
  obtain ⟨_, _, hok, -⟩ := hread c.offset
  exact nomatch hno.symm.trans hok

/-- What is read as no number is placed on its name. -/
theorem nan_sound :
    Sound (spanned do keyword "NaN"; return fun span => .literal span Number.nan) (Placed 9) := by
  intro c e c' hok
  obtain ⟨node, hnode, rfl⟩ := spanned_ok hok
  obtain ⟨_, mid, hkey, hok⟩ := bind_ok hnode
  obtain ⟨rfl, rfl⟩ := Prod.mk.inj (pure_ok hok)
  obtain ⟨hrest, hend⟩ := keyword_ok hkey
  refine ⟨[(.name none "NaN", ⟨c.offset, c'.offset⟩)], ?_, .nan (Nat.le_refl 9) _⟩
  by_cases hpoint : c'.rest.head? = some '.'
  · -- the point may make a longer name, but the parser has stopped in front of it
    obtain ⟨w, hw⟩ := advances_keyword _ _ _ _ hkey
    obtain rfl : w = "NaN".toList := List.append_cancel_right (hw.text.symm.trans hrest)
    exact .nan (.done (.refl c)) (.refl c) hw hpoint
  · have hnext : Next c.rest (.name none "NaN") c'.rest := by
      rw [hrest]
      exact next_name ⟨'N', _, rfl, by decide, List.all_eq_true.mp (by decide)⟩ hend
        fun d ds hd => absurd (by rw [hd]; rfl) hpoint
    exact .located ((advances_keyword _).located hkey hnext)

/-- What is read as an operand without signs is placed as one. -/
theorem primary_sound (h : Sound nested (Placed 1)) : Sound (primary nested) (Placed 9) := by
  intro c e c' hok
  rcases orElse_ok (mapFailure_ok (mapFailure_ok hok)) with hok | ⟨⟨failure, hno⟩, hok⟩
  · exact nan_sound c e c' hok
  rcases orElse_ok hok with hok | ⟨-, hok⟩
  · obtain ⟨node, hnode, rfl⟩ := spanned_ok hok
    obtain ⟨x, mid, hx, hok⟩ := bind_ok hnode
    obtain ⟨rfl, rfl⟩ := Prod.mk.inj (pure_ok hok)
    exact ⟨_, .located (advances_number.located hx (number_ok hx)), .number (Nat.le_refl 9) x _⟩
  rcases orElse_ok hok with hok | ⟨-, hok⟩
  · exact parenthesized_sound h _ _ _ hok
  rcases orElse_ok hok with hok | ⟨-, hok⟩
  · exact call_sound h _ _ _ hok
  -- the constant was tried first, so no statistic starts with its name
  · obtain ⟨⟨m, span⟩, mid, hm, hok⟩ := bind_ok hok
    obtain ⟨rfl, rfl⟩ := Prod.mk.inj (pure_ok hok)
    obtain ⟨ts, hts, htokens, rfl, rest, hnext⟩ := mention_ok hm
    exact ⟨ts, .located hts,
      .mention (Nat.le_refl 9) htokens (hnext.firstName_ne_nan hno)⟩

/-- Signs in front of an operand make a signed operand. -/
theorem Placed.applySigns {ts : List (Token × Span)} {e : Expr} (h : Placed 8 ts e) :
    ∀ {ss : List (Sign × Nat)} {a b : Nat}, Ordered a (signTokensAt ss ++ ts) b →
      Placed 8 (signTokensAt ss ++ ts) (applySigns ss e) := by
  intro ss
  induction ss with
  | nil => exact fun _ => h
  | cons s ss ih =>
    intro a b hordered
    have hrest := ih hordered.2.2
    have hcover : (⟨s.2, s.2 + 1⟩ : Span).cover (Grammar.applySigns ss e).span
        = extent (signTokensAt (s :: ss) ++ ts) := by
      rw [hrest.span_eq]
      have hsplit : Ordered a ([(Token.ofSign s.1, ⟨s.2, s.2 + 1⟩)] ++ ([] ++
          (signTokensAt ss ++ ts))) b := hordered
      exact hsplit.cover (by simp) hrest.ne_nil
    have happly : Grammar.applySigns (s :: ss) e = .signed
        ((⟨s.2, s.2 + 1⟩ : Span).cover (Grammar.applySigns ss e).span) s.1 (Grammar.applySigns ss e) :=
      rfl
    rw [happly, hcover]
    exact .signed (Nat.le_refl 8) hrest rfl

/-- What is read as an operand with signs is placed as one. -/
theorem signed_sound (h : Sound nested (Placed 1)) : Sound (signed nested) (Placed 8) := by
  intro c e c' hok
  obtain ⟨ss, m₁, hss, hok⟩ := bind_ok hok
  obtain ⟨operand, m₂, hoperand, hok⟩ := bind_ok hok
  obtain ⟨rfl, rfl⟩ := Prod.mk.inj (pure_ok hok)
  have hsigns := signsAt_located (Except.ok.inj hss)
  have happly : ∀ {ts : List (Token × Span)}, Reached m₁ ts c' → Placed 8 ts operand →
      ∃ us, Reached c us c' ∧ Placed 8 us (applySigns ss operand) := by
    intro ts hts hplaced
    have hall := Reached.behind hsigns hts
    exact ⟨_, hall, hplaced.applySigns hall.ordered⟩
  rcases orElse_ok hoperand with hok | ⟨-, hok⟩
  · obtain ⟨node, hnode, rfl⟩ := spanned_ok hok
    obtain ⟨x, mid, hx, hok⟩ := bind_ok hnode
    obtain ⟨rfl, rfl⟩ := Prod.mk.inj (pure_ok hok)
    obtain ⟨s, rfl, hstart⟩ := signedInfinity_ok hx
    exact happly (.located (advances_signedInfinity.located hx (next_infinity hstart)))
      (.infinity (Nat.le_refl 8) s _)
  · obtain ⟨ts, hts, hplaced⟩ := primary_sound h _ _ _ hok
    exact happly hts (hplaced.weaken (by decide))

/-! ## Operators -/

/-- The loop over the operators of a level keeps the left operand derivable. -/
theorem chainFrom_sound {operand : Parser Expr} {k : Nat} {os : List Operator} (hos : IsLevel k os)
    (h : Sound operand (Placed (k + 1))) {start : Cursor} {budget : Nat} {left e : Expr}
    {c c' : Cursor} (hok : chainFrom operand os budget left c = .ok (e, c'))
    {ls : List (Token × Span)} (hls : Reached start ls c) (hleft : Placed k ls left) :
    ∃ ts, Reached start ts c' ∧ Placed k ts e := by
  induction budget generalizing left c ls with
  | zero =>
    obtain ⟨rfl, rfl⟩ := Prod.mk.inj (pure_ok hok)
    exact ⟨ls, hls, hleft⟩
  | succ budget ih =>
    obtain ⟨_, m₁, hspace, hok⟩ := bind_ok hok
    obtain ⟨r, m₂, hr, hok⟩ := bind_ok hok
    have hgap := spacing_gap hspace
    rcases operatorOf_ok hos hr with ⟨rfl, rfl, -⟩ | ⟨o, rfl, rfl, hnext⟩
    · obtain ⟨rfl, rfl⟩ := Prod.mk.inj (pure_ok hok)
      exact ⟨ls, hls.to_gap hgap, hleft⟩
    · obtain ⟨right, m₃, hright, hok⟩ := bind_ok hok
      obtain ⟨rs, hrs, hright⟩ := h _ _ _ hright
      have hop := ((advances_operatorOf os).located hr hnext).of_gap hgap
      have hall := hls.append (.behind hop hrs) (by simp)
      have hcover : left.span.cover right.span =
          extent (ls ++ (.operator o, ⟨m₁.offset, m₂.offset⟩) :: rs) := by
        rw [hleft.span_eq, hright.span_eq]
        exact Ordered.cover hall.ordered hleft.ne_nil hright.ne_nil
      refine ih hok hall ?_
      rw [hcover]
      exact .binary (Nat.le_refl _) hleft hright rfl

/-- What is read as a chain of operators is placed on its level. -/
theorem chain_sound {operand : Parser Expr} {k : Nat} {os : List Operator} (hos : IsLevel k os)
    (h : Sound operand (Placed (k + 1))) : Sound (chain operand os) (Placed k) := by
  intro c e c' hok
  obtain ⟨first, m₁, hfirst, hok⟩ := bind_ok hok
  obtain ⟨n, m₂, hn, hok⟩ := bind_ok hok
  obtain ⟨-, rfl⟩ := Prod.mk.inj (Except.ok.inj hn)
  obtain ⟨ts, hts, hplaced⟩ := h _ _ _ hfirst
  exact chainFrom_sound hos h hok hts (hplaced.weaken (Nat.le_succ k))

/-! ## Expressions -/

theorem isLevel_product : IsLevel 7 [.multiply, .divide] :=
  ⟨fun o => by cases o <;> decide, by decide⟩

theorem isLevel_sum : IsLevel 6 [.add, .subtract] :=
  ⟨fun o => by cases o <;> decide, by decide⟩

theorem isLevel_relation : IsLevel 5 [.greaterOrEqual, .lessOrEqual, .greater, .less] :=
  ⟨fun o => by cases o <;> decide, by decide⟩

theorem isLevel_equality : IsLevel 4 [.equal, .notEqual] :=
  ⟨fun o => by cases o <;> decide, by decide⟩

theorem isLevel_conjunction : IsLevel 3 [.and] := ⟨fun o => by cases o <;> decide, by decide⟩

theorem isLevel_disjunction : IsLevel 2 [.or] := ⟨fun o => by cases o <;> decide, by decide⟩

/-- What is read on the level of the weakest operator is placed there. -/
theorem disjunction_sound (h : Sound nested (Placed 1)) : Sound (disjunction nested) (Placed 2) := by
  have hproduct := chain_sound isLevel_product (signed_sound h)
  have hsum := chain_sound isLevel_sum hproduct
  have hrelation := chain_sound isLevel_relation hsum
  have hequality := chain_sound isLevel_equality hrelation
  have hconjunction := chain_sound isLevel_conjunction hequality
  exact chain_sound isLevel_disjunction hconjunction

/-- What is read as a conditional is placed as one. -/
theorem conditional_sound (h : Sound nested (Placed 1)) : Sound (conditional nested) (Placed 1) := by
  intro c e c' hok
  obtain ⟨condition, m₁, hcondition, hok⟩ := bind_ok hok
  obtain ⟨_, m₂, hspace, hok⟩ := bind_ok hok
  obtain ⟨o, m₃, ho, hok⟩ := bind_ok hok
  have hgap := spacing_gap hspace
  obtain ⟨cs, hcs, hc⟩ := disjunction_sound h _ _ _ hcondition
  rcases optional_ok ho with ⟨_, rfl, hquestion⟩ | ⟨rfl, rfl, -⟩
  · obtain ⟨yes, m₄, hyes, hok⟩ := bind_ok (mapFailure_ok (mapFailure_ok hok))
    obtain ⟨_, m₅, hspace', hok⟩ := bind_ok hok
    obtain ⟨_, m₆, hcolon, hok⟩ := bind_ok hok
    obtain ⟨no, m₇, hno, hok⟩ := bind_ok hok
    obtain ⟨rfl, rfl⟩ := Prod.mk.inj (pure_ok hok)
    have hquestion' : Located m₁ [(.question, ⟨m₂.offset, m₃.offset⟩)] m₃ :=
      .character hgap (character_between hquestion) rfl (by decide)
    have hcolon' : Located m₄ [(.colon, ⟨m₅.offset, m₆.offset⟩)] m₆ :=
      .character (spacing_gap hspace') (expectedCharacter_between hcolon) rfl (by decide)
    obtain ⟨ys, hys, hy⟩ := h _ _ _ hyes
    obtain ⟨ns, hns, hn⟩ := h _ _ _ hno
    have hbranches := hys.append (.behind hcolon' hns) (by simp)
    have hall := hcs.append (.behind hquestion' hbranches) (by simp)
    have hcover : condition.span.cover no.span = extent (cs ++ (.question, ⟨m₂.offset, m₃.offset⟩) ::
        (ys ++ (.colon, ⟨m₅.offset, m₆.offset⟩) :: ns)) := by
      rw [hc.span_eq, hn.span_eq]
      have hsplit : Ordered c.offset (cs ++ (((.question, ⟨m₂.offset, m₃.offset⟩) ::
          (ys ++ [(.colon, ⟨m₅.offset, m₆.offset⟩)])) ++ ns)) c'.offset := by
        simpa using hall.ordered
      simpa using hsplit.cover hc.ne_nil hn.ne_nil
    refine ⟨_, hall, ?_⟩
    rw [hcover]
    exact .conditional (Nat.le_refl 1) hc hy hn rfl
  · obtain ⟨rfl, rfl⟩ := Prod.mk.inj (pure_ok hok)
    exact ⟨cs, hcs.to_gap hgap, hc.weaken (by decide)⟩

/-- What is read as an expression is placed as one, at any depth of nesting. -/
theorem expressionWithin_sound (depth : Nat) : Sound (expressionWithin depth) (Placed 1) := by
  induction depth with
  | zero =>
    intro c e c' hok
    exact nomatch hok
  | succ depth ih => exact (conditional_sound ih).mapFailure

/-- What is read as an expression derives from the grammar, with the same tree and the same spans. -/
theorem expression_sound : Sound expression (Placed 1) :=
  fun c e c' hok => expressionWithin_sound (c.rest.length + 1) c e c' hok

/-! ## Whole texts -/

/-- A phrase that reaches the end of the text makes up the text. -/
theorem complete_sound {p : Parser α} {R : List (Token × Span) → α → Prop} (h : Sound p R)
    {c c' : Cursor} {a : α} (hok : complete p c = .ok (a, c')) :
    ∃ ts, Located c ts c' ∧ c'.rest = [] ∧ R ts a := by
  obtain ⟨v, m₁, hv, hok⟩ := bind_ok hok
  obtain ⟨_, m₂, hspace, hok⟩ := bind_ok hok
  obtain ⟨_, m₃, hend, hok⟩ := bind_ok hok
  obtain ⟨rfl, rfl⟩ := Prod.mk.inj (pure_ok hok)
  obtain ⟨hnil, rfl⟩ := endOfText_ok (mapFailure_ok hend)
  obtain ⟨ts, hts, hR⟩ := h _ _ _ hv
  exact ⟨ts, (hts.to_gap (spacing_gap hspace)).strict (by rw [hnil]; simp), hnil, hR⟩

/-- What is read as a single statistic is one, and its span is that of its tokens. -/
theorem soleMention_ok {c c' : Cursor} {m : Mention} {span : Span}
    (hok : soleMention c = .ok ((m, span), c')) :
    ∃ ts, Located c ts c' ∧ c'.rest = [] ∧ ts.map (·.1) = m.tokens ∧ span = extent ts := by
  have hsound : Sound mention fun ts r => ts.map (·.1) = r.1.tokens ∧ r.2 = extent ts := by
    rintro c ⟨m, span⟩ c' hok
    obtain ⟨ts, hts, htokens, hspan, -⟩ := mention_ok hok
    exact ⟨ts, .located hts, htokens, hspan⟩
  obtain ⟨_, m₁, hspace, hok⟩ := bind_ok hok
  obtain ⟨ts, hts, hnil, htokens, hspan⟩ := complete_sound hsound hok
  exact ⟨ts, hts.of_gap (spacing_gap hspace), hnil, htokens, hspan⟩

/-- An expression starts with a number, a name, an infinity, a sign or a parenthesis. -/
theorem Derives.head {k : Nat} {ts : List Token} {e : Expr} (h : Derives k ts e) :
    ∃ t us, ts = t :: us ∧ t.symbol? ∈ [none, some ['+'], some ['-'], some ['(']] := by
  induction h with
  | weaker _ ih => exact ih
  | conditional _ _ _ ih | binary _ _ _ ih =>
    obtain ⟨t, us, rfl, ht⟩ := ih
    exact ⟨t, _, rfl, ht⟩
  | signed s _ _ => exact ⟨_, _, rfl, by cases s <;> decide⟩
  | _ => exact ⟨_, _, rfl, by simp [Token.symbol?]⟩

/-- No expression starts with the second half of a comparison. -/
theorem Derives.not_equals {k : Nat} {t : Token} {us : List Token} {e : Expr}
    (h : Derives k (t :: us) e) : ¬ t.Heads '=' := by
  intro hheads
  obtain ⟨t', us', heq, ht⟩ := h.head
  obtain ⟨rfl, -⟩ := List.cons.inj heq
  cases t with
  | number _ | name _ _ | quoted _ => exact absurd hheads (by simp [Token.Heads] <;> decide)
  | infinity s => cases s <;> exact absurd hheads (by simp [Token.Heads])
  | _ => obtain ⟨cs, hcs⟩ := hheads; rw [hcs] at ht; simp at ht

/-- A definition, and whatever may come behind it. -/
def definition : Parser Assignment := do
  spacing
  let (target, span) ← mention
  spacing
  expectedCharacter '='
  let body ← expression
  return ⟨target, span, body⟩

theorem assignment_eq_complete : assignment = labelled .assignment (complete definition) := rfl

/-- What is read as a definition is placed on its tokens. -/
theorem definition_sound : Sound definition PlacedAssignment := by
  intro c a c' hok
  obtain ⟨_, m₁, hspace, hok⟩ := bind_ok hok
  obtain ⟨⟨target, span⟩, m₂, htarget, hok⟩ := bind_ok hok
  obtain ⟨_, m₃, hspace', hok⟩ := bind_ok hok
  obtain ⟨_, m₄, hequals, hok⟩ := bind_ok hok
  obtain ⟨body, m₅, hbody, hok⟩ := bind_ok hok
  obtain ⟨rfl, rfl⟩ := Prod.mk.inj (pure_ok hok)
  obtain ⟨ls, hls, htokens, hspan, -⟩ := mention_ok htarget
  obtain ⟨rs, hrs, hplaced⟩ := expression_sound _ _ _ hbody
  have hword := expectedCharacter_between hequals
  have hnext : Next m₃.rest .equals m₄.rest := by
    rw [hword.text]
    refine next_character rfl (fun h => absurd h (by decide)) fun _ hhead => ?_
    have hhead : m₄.rest.head? = some '=' := hhead
    obtain ⟨r, rs, rfl⟩ := List.exists_cons_of_ne_nil hplaced.ne_nil
    obtain ⟨d, ds, hd, hheads⟩ := hrs.heads (by rw [hhead]; rfl)
    rw [hd] at hhead
    obtain rfl : d = '=' := Option.some.inj hhead
    exact Derives.not_equals hplaced.derives hheads
  have hequals' : Located m₂ [(.equals, ⟨m₃.offset, m₄.offset⟩)] m₄ :=
    .single (spacing_gap hspace') hword hnext
  refine ⟨_, .behind (hls.of_gap (spacing_gap hspace)) (.behind hequals' hrs), ?_⟩
  exact ⟨ls, rs, _, rfl, htokens, hspan, hplaced⟩

/-- What is read as a definition is one, in its place. -/
theorem assignment_ok {c c' : Cursor} {a : Assignment} (hok : assignment c = .ok (a, c')) :
    ∃ ts, Located c ts c' ∧ c'.rest = [] ∧ PlacedAssignment ts a :=
  complete_sound definition_sound (mapFailure_ok hok)

end DerivedStats.Grammar
