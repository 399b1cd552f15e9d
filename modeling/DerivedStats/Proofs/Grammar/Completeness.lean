import DerivedStats.Proofs.Grammar.Soundness

/-!
# The parsers read the whole language

Every phrase of the grammar is read by its parser, with its tree, wherever what comes behind it
cannot belong to it (`Complete`). A parser may skip the spacing behind its phrase or leave it, so the
rest is the same up to spacing only.

The parser for nested expressions is good for texts below a given length; a phrase that holds
expressions has read a token before them, so the phrase may be one character longer. That is the
induction of `expressionWithin_complete`. Operators of one level are read in a loop; a derivation
leaning to the left says how far the loop has come (`chain_steps`).

Main results: `expression_complete`, `assignment_complete`.
-/

namespace DerivedStats.Grammar

open DerivedStats.Grammar.Parser

/-- The token can come behind a phrase of the level without being part of it. -/
def Token.Follows (k : Nat) : Token → Prop
  | closeParen | comma | colon => True
  | question => 1 < k
  | operator o => o.precedence < k
  | _ => False

/-- What comes next is no part of a phrase of the level in front of it. -/
def Stops (k : Nat) (cs : List Char) : Prop :=
  ahead cs = [] ∨ ∃ t rest, Next (ahead cs) t rest ∧ t.Follows k

/-- What stops a phrase stops those of higher levels. -/
theorem Stops.mono {j k : Nat} {cs : List Char} (h : Stops j cs) (hle : j ≤ k) : Stops k cs := by
  rcases h with hnil | ⟨t, rest, hnext, ht⟩
  · exact .inl hnil
  · refine .inr ⟨t, rest, hnext, ?_⟩
    cases t with
    | question => exact Nat.lt_of_lt_of_le (show 1 < j from ht) hle
    | operator o => exact Nat.lt_of_lt_of_le (show o.precedence < j from ht) hle
    | closeParen | comma | colon => trivial
    | _ => exact ht

/-- The spacing in front of a text does not matter for stopping. -/
theorem Stops.of_ahead {k : Nat} {cs cs' : List Char} (h : Stops k cs)
    (hsame : ahead cs = ahead cs') : Stops k cs' := by
  unfold Stops
  rw [← hsame]
  exact h

/-- A token that comes next is one that may follow. -/
theorem Stops.follows {k : Nat} {cs rest : List Char} {t : Token} (h : Stops k cs)
    (hnext : Next (ahead cs) t rest) : t.Follows k := by
  rcases h with hnil | ⟨t', rest', hnext', ht⟩
  · rw [hnil] at hnext
    exact absurd hnext.length_lt (by simp)
  · obtain ⟨rfl, -⟩ := hnext.unique hnext'
    exact ht

/-- A character that is a token of its own comes next only if it may follow. -/
theorem Stops.head_ne {k : Nat} {cs : List Char} {t : Token} {x : Char} (h : Stops k cs)
    (hx : t.symbol? = some [x]) (hplain : x ∉ ['+', '-', '=', '<', '>']) (ht : ¬ t.Follows k) :
    (ahead cs).head? ≠ some x := by
  intro hhead
  obtain ⟨r, hr⟩ := List.head?_eq_some_iff.mp hhead
  cases Lexes.character hr hx hplain with
  | token hnext _ => exact ht (h.follows hnext)

/-- The parser reads every phrase of the level in a text below the length. -/
def Complete (n k : Nat) (p : Parser Expr) : Prop :=
  ∀ cs ts e rest, (ahead cs).length < n → Lexes cs ts rest → Derives k ts e → Stops k rest →
    ∃ rest', ahead rest' = ahead rest ∧ Reads p cs (·.bare = e) rest'

/-! ## Characters between phrases -/

/-- A symbol of one character stands behind the spacing in front of it. -/
theorem Lexes.uncons {cs rest : List Char} {t : Token} {ts : List Token} {x : Char}
    (h : Lexes cs (t :: ts) rest) (hx : t.symbol? = some [x]) :
    ∃ mid, ahead cs = x :: mid ∧ Lexes mid ts rest := by
  cases h with
  | token hnext hmore => exact ⟨_, (hnext.symbol hx).1, hmore⟩

/-- A phrase is read behind a character. -/
theorem Reads.behind {α : Type} {p : Parser α} {x : Char} {cs mid rest : List Char} {P : α → Prop}
    (h : ahead cs = x :: mid) (hp : Reads p mid P rest) :
    Reads (do spacing; character x; p) cs P rest :=
  (reads_spacing cs).bind fun _ _ => h ▸ (reads_character x mid).bind fun _ _ => hp

theorem Reads.behind_expected {α : Type} {p : Parser α} {x : Char} {cs mid rest : List Char}
    {P : α → Prop} (h : ahead cs = x :: mid) (hp : Reads p mid P rest) :
    Reads (do spacing; expectedCharacter x; p) cs P rest :=
  (reads_spacing cs).bind fun _ _ => h ▸ (reads_expectedCharacter x mid).bind fun _ _ => hp

/-! ## Phrases with commas between them -/

section CommaSeparated

variable {α β : Type} {item : Parser α} {value : α → β} {n : Nat} {S : List Char → Prop}

/-- The parser reads the given tokens, wherever what comes behind them is as `S` says. -/
def ReadsItem (n : Nat) (S : List Char → Prop) (item : Parser α) (value : α → β)
    (p : List Token × β) : Prop :=
  ∀ cs mid, (ahead cs).length < n → Lexes cs p.1 mid → S mid →
    ∃ mid', ahead mid' = ahead mid ∧ Reads item cs (value · = p.2) mid'

/-- In front of what comes behind a list there is no comma. -/
def EndsList (S : List Char → Prop) (rest : List Char) : Prop :=
  (∀ mid, ahead mid = ahead rest → S mid) ∧ (ahead rest).head? ≠ some ','

/-- All items of a row are read, each behind its comma. -/
theorem furtherItems_complete (hcomma : ∀ mid r, Next (ahead mid) .comma r → S mid)
    {parts : List (List Token × β)} (hparts : ∀ p ∈ parts, ReadsItem n S item value p)
    {cs rest : List Char} {budget : Nat} (hbudget : (ahead cs).length ≤ budget)
    (hn : (ahead cs).length ≤ n) (hrest : EndsList S rest)
    (h : Lexes cs ((parts.map (·.1)).flatMap ([.comma] ++ ·)) rest) :
    ∃ rest', ahead rest' = ahead rest
      ∧ Reads (furtherItems item budget) cs (fun as => as.map value = parts.map (·.2)) rest' := by
  induction parts generalizing cs budget with
  | nil =>
    cases h with
    | done hsame =>
      refine ⟨cs, hsame, ?_⟩
      cases budget with
      | zero => exact .pure _ rfl
      | succ budget =>
        have hlacks : Lacks (do spacing; character ','; item) cs :=
          (reads_spacing cs).bind_lacks fun _ _ => (lacks_character (hsame ▸ hrest.2)).bind
        refine hlacks.optional.bind ?_
        rintro _ rfl
        exact .pure _ rfl
  | cons p parts ih =>
    have h : Lexes cs (.comma :: (p.1 ++ (parts.map (·.1)).flatMap ([.comma] ++ ·))) rest := by
      simpa using h
    obtain ⟨m₁, hahead, hmore⟩ := h.uncons rfl
    have hlen := congrArg List.length hahead
    rw [List.length_cons] at hlen
    obtain ⟨m₂, hp, hmore⟩ := hmore.split
    have hle₁ := length_ahead_le m₁
    have hle₂ := hp.length_le
    -- behind an item comes the next comma, or what comes behind the list
    have hS : S m₂ := by
      cases parts with
      | nil =>
        cases hmore with
        | done hsame => exact hrest.1 m₂ hsame
      | cons q parts =>
        cases hmore with
        | token hnext _ => exact hcomma m₂ _ hnext
    obtain ⟨m₂', hsame, hitem⟩ := hparts p (by simp) m₁ m₂ (by omega) hp hS
    obtain ⟨budget, rfl⟩ : ∃ b, budget = b + 1 := ⟨budget - 1, by omega⟩
    have hbudget' : (ahead m₂').length ≤ budget := by rw [hsame]; omega
    have hn' : (ahead m₂').length ≤ n := by rw [hsame]; omega
    obtain ⟨rest', hrest', hfurther⟩ :=
      ih (fun q hq => hparts q (by simp [hq])) hbudget' hn' (hmore.of_ahead hsame.symm)
    refine ⟨rest', hrest', ?_⟩
    refine (Reads.behind hahead hitem).optional.bind ?_
    rintro _ ⟨a, rfl, ha⟩
    exact hfurther.bind fun as has => .pure _ (by simp [ha, has])

/-- All items of a list with commas are read. -/
theorem commaSeparated_complete (hcomma : ∀ mid r, Next (ahead mid) .comma r → S mid)
    {parts : List (List Token × β)} (hne : parts ≠ [])
    (hparts : ∀ p ∈ parts, ReadsItem n S item value p) {cs rest : List Char}
    (hn : (ahead cs).length < n) (hrest : EndsList S rest)
    (h : Lexes cs (List.intercalate [.comma] (parts.map (·.1))) rest) :
    ∃ rest', ahead rest' = ahead rest
      ∧ Reads (commaSeparated item) cs (fun as => as.map value = parts.map (·.2)) rest' := by
  obtain ⟨p, parts, rfl⟩ := List.exists_cons_of_ne_nil hne
  rw [List.map_cons, intercalate_cons] at h
  obtain ⟨m₁, hp, hmore⟩ := h.split
  have hle₁ := hp.length_le
  have hS : S m₁ := by
    cases parts with
    | nil =>
      cases hmore with
      | done hsame => exact hrest.1 m₁ hsame
    | cons q parts =>
      cases hmore with
      | token hnext _ => exact hcomma m₁ _ hnext
  obtain ⟨m₁', hsame, hitem⟩ := hparts p (by simp) cs m₁ hn hp hS
  obtain ⟨rest', hrest', hfurther⟩ := furtherItems_complete hcomma
    (fun q hq => hparts q (by simp [hq])) (length_ahead_le m₁') (by rw [hsame]; omega) hrest
    (hmore.of_ahead hsame.symm)
  refine ⟨rest', hrest', hitem.bind fun a ha => (reads_remaining m₁').bind ?_⟩
  rintro _ rfl
  exact hfurther.bind fun as has => .pure _ (by simp [ha, has])

end CommaSeparated

/-! ## Mentions -/

/-- The tokens of a dimension are read as the dimension. -/
theorem dimension_complete (d : Dimension) (n : Nat) :
    ReadsItem n (fun _ => True) (do spacing; dimension) id (d.tokens, d) := by
  intro cs mid _ h _
  cases h with
  | @token _ m₁ _ _ _ hkey hmore =>
    obtain ⟨w, hw, hkey', htext, hend, -⟩ := hkey.name
    obtain ⟨m₂, hcolon, hmore⟩ := hmore.uncons rfl
    cases hmore with
    | @token _ m₃ _ _ _ hvalue hmore =>
      obtain ⟨v, hv, hvalue', htext'⟩ := hvalue.quoted
      cases hmore with
      | done hsame =>
        refine ⟨m₃, hsame, (reads_spacing cs).bind fun _ _ => Reads.labelled ?_⟩
        rw [htext]
        refine (reads_identifier hw hend).expecting.bind ?_
        rintro _ rfl
        refine Reads.behind_expected hcolon (Reads.behind_expected htext' ?_)
        refine (reads_dimensionValue hv m₃).expecting.bind ?_
        rintro _ rfl
        refine (reads_expectedCharacter '"' m₃).bind fun _ _ => .pure _ ?_
        rw [← hkey', ← hvalue']
        rfl

/-- The tokens of dimensions between braces are read as the dimensions. -/
theorem dimensionClause_complete {ds : List Dimension} (hne : ds ≠ []) {cs rest : List Char}
    (h : Lexes cs (.openBrace :: (List.intercalate [.comma] (ds.map Dimension.tokens)
      ++ [.closeBrace])) rest) :
    ∃ rest', ahead rest' = ahead rest ∧ Reads (do spacing; dimensionClause) cs (· = ds) rest' := by
  obtain ⟨m₂, hopen, hmore⟩ := h.uncons rfl
  obtain ⟨m₃, hitems, hclose⟩ := hmore.split
  obtain ⟨m₄, hclose, hdone⟩ := hclose.uncons rfl
  cases hdone with
  | done hsame =>
    have hitems' : Lexes m₂ (List.intercalate [.comma]
        ((ds.map fun d => (d.tokens, d)).map (·.1))) m₃ := by
      simpa [List.map_map, Function.comp_def] using hitems
    have hparts : ∀ p ∈ ds.map fun d => (d.tokens, d),
        ReadsItem ((ahead m₂).length + 1) (fun _ => True) (do spacing; dimension) id p := by
      intro p hp
      obtain ⟨d, -, rfl⟩ := List.mem_map.mp hp
      exact dimension_complete d _
    obtain ⟨m₃', hsame', hread⟩ := commaSeparated_complete (fun _ _ _ => trivial)
      (by simpa using hne) hparts (Nat.lt_succ_self _)
      ⟨fun _ _ => trivial, by rw [hclose]; simp⟩ hitems'
    have hbrace : Reads (do spacing; expectedCharacter '\x7d') m₃' (fun _ => True) m₄ := by
      refine (reads_spacing m₃').bind fun _ _ => ?_
      rw [hsame', hclose]
      exact reads_expectedCharacter _ _
    refine ⟨m₄, hsame, Reads.behind hopen (hread.committed.bind fun ds' hds => ?_)⟩
    refine hbrace.committed.bind fun _ _ => .pure _ ?_
    simpa [List.map_map, Function.comp_def] using hds

/-- The tokens of a mention are read as the mention, if no brace follows. -/
theorem mention_complete {m : Mention} {cs rest : List Char} (hcs : ahead cs = cs)
    (h : Lexes cs m.tokens rest) (hrest : (ahead rest).head? ≠ some '\x7b') :
    ∃ rest', ahead rest' = ahead rest ∧ Reads mention cs (·.1 = m) rest' := by
  cases h with
  | @token _ m₁ _ _ _ hname hmore =>
    rw [hcs] at hname
    have hfirst : ∀ {rest' : List Char} {ds : List Dimension}, ds = m.dimensions →
        Reads (Parser.optional (do spacing; dimensionClause)) m₁ (·.getD [] = ds) rest' →
        Reads mention cs (·.1 = m) rest' := by
      rintro rest' _ rfl hreads
      refine Reads.labelled ((reads_offset cs).bind fun _ _ => ?_)
      refine (reads_qualifiedName hname).bind ?_
      rintro _ rfl
      refine hreads.bind fun o ho => (reads_offset rest').bind fun _ _ => .pure _ ?_
      rw [ho]
    by_cases hdims : m.dimensions = []
    · rw [if_pos hdims] at hmore
      cases hmore with
      | done hsame =>
        refine ⟨m₁, hsame, hfirst rfl ?_⟩
        have hlacks : Lacks (do spacing; dimensionClause) m₁ :=
          (reads_spacing m₁).bind_lacks fun _ _ => (lacks_character (hsame ▸ hrest)).bind
        exact hlacks.optional.mono fun o ho => by rw [ho, hdims]; rfl
    · rw [if_neg hdims] at hmore
      obtain ⟨rest', hsame, hclause⟩ := dimensionClause_complete hdims hmore
      refine ⟨rest', hsame, hfirst rfl ?_⟩
      exact hclause.optional.mono fun o ⟨ds, ho, hds⟩ => by rw [ho, hds]; rfl

/-! ## Operands -/

/-- There are nine levels. -/
theorem Derives.level_le {k : Nat} {ts : List Token} {e : Expr} (h : Derives k ts e) : k ≤ 9 := by
  induction h with
  | weaker _ ih => omega
  | binary o => cases o <;> decide
  | _ => decide

/-- Where a name stands that is not that of the constant, the constant is not read. -/
theorem lacks_nan {cs rest : List Char} {k : Option String} {n : String}
    (h : Next cs (.name k n) rest) (hn : k.getD n ≠ "NaN") : Lacks (keyword "NaN") cs := by
  refine lacks_keyword fun r hr => ?_
  obtain ⟨r', hr', hend'⟩ := h.first_name
  by_contra hend
  have hname : IsName (k.getD n).toList := by
    cases k with
    | none =>
      obtain ⟨w, hw, rfl, -⟩ := h.name
      simpa using hw
    | some c =>
      obtain ⟨w, _, hw, _, rfl, -⟩ := h.qualified
      simpa using hw
  have hnan : IsName "NaN".toList := ⟨'N', _, rfl, by decide, List.all_eq_true.mp (by decide)⟩
  obtain ⟨hsame, -⟩ := run_unique hname.all hnan.all hend' (by simpa using hend) (hr'.symm.trans hr)
  exact hn (String.toList_inj.mp hsame)

/-- A text whose next token is a name starts with the first character of one. -/
theorem Next.name_head {cs rest : List Char} {k : Option String} {n : String}
    (h : Next cs (.name k n) rest) : cs.head?.any isNameStart = true := by
  obtain ⟨c, ds, rfl, hc⟩ := h.starts.heads
  exact hc

/-- Where a name stands there is no number. -/
theorem lacks_number_of_name {cs rest : List Char} {k : Option String} {n : String}
    (h : Next cs (.name k n) rest) : Lacks number cs := by
  refine lacks_number ?_
  obtain ⟨c, ds, rfl, hc⟩ := h.starts.heads
  cases hd : isDigit c with
  | false => simpa using hd
  | true => exact absurd (show isNameStart c = true from hc) (by simp [isNameStart_of_isDigit hd])

variable {nested : Parser Expr} {n : Nat}

theorem lacks_parenthesized {cs : List Char} (h : cs.head? ≠ some '(') :
    Lacks (parenthesized nested) cs :=
  (lacks_character h).bind.spanned

/-- A text whose next token is a name starts with no other character. -/
theorem Next.name_head_ne {cs rest : List Char} {k : Option String} {n : String} {x : Char}
    (h : Next cs (.name k n) rest) (hx : isNameStart x = false) : cs.head? ≠ some x := by
  intro hhead
  have := h.name_head
  rw [hhead] at this
  exact absurd this (by simp [hx])

/-- A name is no call unless it is that of an aggregate and a parenthesis follows. -/
theorem lacks_call {cs rest : List Char} {k : Option String} {s : String}
    (h : Next cs (.name k s) rest) (hrest : (ahead rest).head? ≠ some '(') :
    Lacks (call nested) cs := by
  refine (Lacks.spanned ?_).labelled
  by_cases hname : ∃ (a : Aggregate) (r : List Char), cs = a.name.toList ++ r
  · obtain ⟨a, r, rfl⟩ := hname
    refine (reads_aggregateName a r).bind_lacks fun _ _ =>
      (reads_spacing r).bind_lacks fun _ _ => (lacks_character fun hopen => ?_).bind
    -- a parenthesis ends the name, so it would be the token that stands here
    obtain ⟨r', hr'⟩ := List.head?_eq_some_iff.mp hopen
    have hpoint : r.head? ≠ some '.' := head_ne_point (by rw [hopen]; simp)
    have hnext := next_name (isName_aggregate a) (head_not_isNameChar hr' (by decide))
      fun d ds hd => absurd (by rw [hd]; rfl) hpoint
    obtain ⟨-, rfl⟩ := h.unique hnext
    exact hrest hopen
  · refine (mild_aggregateName.lacks fun offset r hr => hname ?_).bind
    exact ⟨r.1, r.2.rest, aggregateName_ok (show _ = Except.ok (r.1, r.2) from hr)⟩

/-- A list ends at a closing parenthesis. -/
theorem Stops.endsList {rest : List Char} {t : Token} {mid : List Char}
    (hnext : Next (ahead rest) t mid) (ht : t = .closeParen) : EndsList (Stops 1) rest := by
  subst ht
  refine ⟨fun m hm => .inr ⟨.closeParen, mid, hm ▸ hnext, trivial⟩, ?_⟩
  rw [(hnext.symbol rfl).1]
  simp

/-- A group is read as the tree between its parentheses. -/
theorem group_complete (h : Complete n 1 nested) {cs rest : List Char} {ts : List Token} {e : Expr}
    (hcs : ahead cs = cs) (hn : cs.length < n + 1)
    (hlexes : Lexes cs (.openParen :: (ts ++ [.closeParen])) rest) (hd : Derives 1 ts e) :
    ∃ rest', ahead rest' = ahead rest ∧ Reads (parenthesized nested) cs (·.bare = e) rest' := by
  obtain ⟨m₁, hopen, hmore⟩ := hlexes.uncons rfl
  rw [hcs] at hopen
  subst hopen
  obtain ⟨m₂, hinner, hclose⟩ := hmore.split
  obtain ⟨m₃, hclose', hdone⟩ := hclose.uncons rfl
  cases hdone with
  | done hsame =>
    have hle := length_ahead_le m₁
    have hstops : Stops 1 m₂ := by
      cases hclose with
      | token hnext _ => exact .inr ⟨.closeParen, _, hnext, trivial⟩
    obtain ⟨m₂', hsame', hread⟩ := h m₁ ts e m₂ (by simp at hn; omega) hinner hd hstops
    refine ⟨m₃, hsame, Reads.spanned ((reads_character '(' m₁).bind fun _ _ => Reads.committed ?_)⟩
    refine hread.bind fun inner hinner => Reads.behind_expected (hsame'.trans hclose') (.pure _ ?_)
    intro span
    rw [Expr.bare_withSpan]
    exact hinner

/-- The tokens of a call are read as the call. -/
theorem call_complete (h : Complete n 1 nested) {cs rest : List Char} {a : Aggregate}
    {arguments : List (List Token × Expr)} (hne : arguments ≠ []) (hcs : ahead cs = cs)
    (hn : cs.length < n + 1)
    (hlexes : Lexes cs (.name none a.name :: .openParen ::
      (List.intercalate [.comma] (arguments.map (·.1)) ++ [.closeParen])) rest)
    (hd : ∀ p ∈ arguments, Derives 1 p.1 p.2) :
    ∃ rest', ahead rest' = ahead rest
      ∧ Reads (call nested) cs (·.bare = .call .none a (arguments.map (·.2))) rest' := by
  cases hlexes with
  | @token _ m₁ _ _ _ hname hmore =>
    rw [hcs] at hname
    have hlt := hname.length_lt
    obtain ⟨w, -, hw, htext, -⟩ := hname.name
    obtain ⟨m₂, hopen, hmore⟩ := hmore.uncons rfl
    obtain ⟨m₃, hitems, hclose⟩ := hmore.split
    obtain ⟨m₄, hclose', hdone⟩ := hclose.uncons rfl
    have hlen := congrArg List.length hopen
    rw [List.length_cons] at hlen
    have hle₁ := length_ahead_le m₁
    have hle₂ := length_ahead_le m₂
    have hends : EndsList (Stops 1) m₃ := by
      cases hclose with
      | token hnext _ => exact Stops.endsList hnext rfl
    cases hdone with
    | done hsame =>
      have hparts : ∀ p ∈ arguments, ReadsItem n (Stops 1) nested Expr.bare p :=
        fun p hp cs mid hcs hp' hstops => h cs p.1 p.2 mid hcs hp' (hd p hp) hstops
      obtain ⟨m₃', hsame', hread⟩ := commaSeparated_complete
        (fun mid r hnext => .inr ⟨.comma, r, hnext, trivial⟩) hne hparts (by omega) hends hitems
      refine ⟨m₄, hsame, (Reads.spanned ?_).labelled⟩
      rw [htext, ← String.toList_ofList (l := w), ← hw]
      refine (reads_aggregateName a m₁).bind ?_
      rintro _ rfl
      refine Reads.behind hopen (Reads.committed ?_)
      refine hread.labelled.bind fun es hes =>
        Reads.behind_expected (hsame'.trans hclose') (.pure _ fun span => ?_)
      rw [Expr.bare, Expr.baresOf_eq_map, hes]

/-! The alternatives of a primary phrase are tried one after the other, so each phrase needs the ones
in front of its own to fail without having read anything. -/

/-- A number is read as its literal. -/
theorem number_complete {cs rest : List Char} {x : Float} (hcs : ahead cs = cs)
    (hlexes : Lexes cs [.number x] rest) :
    ∃ rest', ahead rest' = ahead rest
      ∧ Reads (primary nested) cs (·.bare = .literal .none x) rest' := by
  cases hlexes with
  | @token _ m _ _ _ hnext hdone =>
    rw [hcs] at hnext
    cases hdone with
    | done hsame =>
      have hnan : Lacks (keyword "NaN") cs := by
        refine lacks_keyword fun r hr => ?_
        obtain ⟨c, ds, hc, hdigit⟩ := hnext.starts.heads
        obtain rfl : 'N' = c := (List.cons.inj (hr.symm.trans hc)).1
        exact absurd (show isDigit 'N' = true from hdigit) (by decide)
      refine ⟨m, hsame, Reads.expecting (Reads.labelled ?_)⟩
      refine Lacks.orElse hnan.bind.spanned (Reads.orElse (Reads.spanned ?_))
      refine (reads_number hnext).bind ?_
      rintro _ rfl
      exact .pure _ fun _ => rfl

/-- The name of no number is read as its literal. -/
theorem nan_complete {cs rest : List Char} (hcs : ahead cs = cs)
    (hlexes : Lexes cs [.name none "NaN"] rest) :
    ∃ rest', ahead rest' = ahead rest
      ∧ Reads (primary nested) cs (·.bare = .literal .none Number.nan) rest' := by
  cases hlexes with
  | @token _ m _ _ _ hnext hdone =>
    rw [hcs] at hnext
    obtain ⟨w, -, hw, rfl, hend, -⟩ := hnext.name
    cases hdone with
    | done hsame =>
      refine ⟨m, hsame, Reads.expecting (Reads.labelled (Reads.orElse (Reads.spanned ?_)))⟩
      rw [← String.toList_ofList (l := w), ← hw]
      exact (reads_keyword hend).bind fun _ _ => .pure _ fun _ => rfl

/-- The tokens of a mention are read as an operand, if the mention is not named like no number. -/
theorem statistic_complete {cs rest : List Char} {m : Mention} (hcs : ahead cs = cs)
    (hlexes : Lexes cs m.tokens rest) (hm : m.firstName ≠ "NaN") (hrest : Stops 9 rest) :
    ∃ rest', ahead rest' = ahead rest
      ∧ Reads (primary nested) cs (·.bare = .mention .none m) rest' := by
  obtain ⟨rest', hsame, hread⟩ := mention_complete hcs hlexes
    (hrest.head_ne (t := .openBrace) rfl (by decide) id)
  refine ⟨rest', hsame, Reads.expecting (Reads.labelled ?_)⟩
  cases hlexes with
  | @token _ r _ _ _ hname hmore =>
    rw [hcs] at hname
    have hopen : (ahead r).head? ≠ some '(' := by
      by_cases hdims : m.dimensions = []
      · rw [if_pos hdims] at hmore
        cases hmore with
        | done hsame =>
          rw [hsame]
          exact hrest.head_ne (t := .openParen) rfl (by decide) id
      · rw [if_neg hdims] at hmore
        obtain ⟨_, hbrace, -⟩ := hmore.uncons rfl
        rw [hbrace]
        simp
    refine Lacks.orElse (lacks_nan hname hm).bind.spanned
      (Lacks.orElse (lacks_number_of_name hname).bind.spanned
        (Lacks.orElse (lacks_parenthesized (hname.name_head_ne (by decide)))
          (Lacks.orElse (lacks_call hname hopen) ?_)))
    exact hread.bind fun ms hms => .pure _ (by rw [← hms]; rfl)

/-- A primary phrase is read where it starts, without spacing in front. -/
theorem primary_complete (h : Complete n 1 nested) {cs rest : List Char} {ts : List Token} {e : Expr}
    (hcs : ahead cs = cs) (hn : cs.length < n + 1) (hlexes : Lexes cs ts rest)
    (hd : Derives 9 ts e) (hrest : Stops 9 rest) :
    ∃ rest', ahead rest' = ahead rest ∧ Reads (primary nested) cs (·.bare = e) rest' := by
  generalize hk : 9 = k at hd
  cases hd with
  | weaker hd =>
    have := hd.level_le
    omega
  | conditional => omega
  | binary o => cases o <;> exact absurd hk (by decide)
  | signed => omega
  | infinity => omega
  | number x => exact number_complete hcs hlexes
  | nan => exact nan_complete hcs hlexes
  | group hd =>
    obtain ⟨rest', hsame, hread⟩ := group_complete h hcs hn hlexes hd
    refine ⟨rest', hsame, Reads.expecting (Reads.labelled ?_)⟩
    obtain ⟨m, hopen, -⟩ := hlexes.uncons rfl
    rw [hcs] at hopen
    subst hopen
    have hnan : Lacks (keyword "NaN") ('(' :: m) :=
      lacks_keyword fun r hr => absurd (List.cons.inj hr).1 (by decide)
    exact Lacks.orElse hnan.bind.spanned
      (Lacks.orElse (lacks_number rfl).bind.spanned (Reads.orElse hread))
  | call a hne hd =>
    obtain ⟨rest', hsame, hread⟩ := call_complete h hne hcs hn hlexes hd
    refine ⟨rest', hsame, Reads.expecting (Reads.labelled ?_)⟩
    cases hlexes with
    | token hname _ =>
      rw [hcs] at hname
      have hnan := lacks_nan hname (by cases a <;> decide)
      exact Lacks.orElse hnan.bind.spanned (Lacks.orElse (lacks_number_of_name hname).bind.spanned
        (Lacks.orElse (lacks_parenthesized (hname.name_head_ne (by decide))) (Reads.orElse hread)))
  | mention m hm => exact statistic_complete hcs hlexes hm hrest

/-! ## Signs -/

/-- A signed phrase is signs in front of an infinity or of a primary phrase. -/
theorem Derives.signs {ts : List Token} {e : Expr} (h : Derives 8 ts e) :
    ∃ (ss : List Sign) (us : List Token) (a : Expr), ts = ss.map Token.ofSign ++ us
      ∧ e = ss.foldr (fun s e => .signed .none s e) a
      ∧ ((∃ s, us = [.infinity s] ∧ a = .literal .none s.infinity) ∨ Derives 9 us a) := by
  generalize hk : 8 = k at h
  induction h with
  | weaker h _ =>
    subst hk
    exact ⟨[], _, _, rfl, rfl, .inr h⟩
  | signed s _ ih =>
    obtain ⟨ss, us, a, rfl, rfl, ha⟩ := ih rfl
    exact ⟨s :: ss, us, a, rfl, rfl, ha⟩
  | infinity s => exact ⟨[], _, _, rfl, rfl, .inl ⟨s, rfl, rfl⟩⟩
  | binary o => cases o <;> exact absurd hk (by decide)
  | _ => omega

/-- A primary phrase starts with no sign and no infinity. -/
theorem Derives.primary_head {ts : List Token} {e : Expr} (h : Derives 9 ts e) :
    ∃ t us, ts = t :: us ∧ ∀ s, t ≠ .ofSign s ∧ t ≠ .infinity s := by
  generalize hk : 9 = k at h
  cases h with
  | weaker h =>
    have := h.level_le
    omega
  | binary o => cases o <;> exact absurd hk (by decide)
  | conditional => omega
  | signed => omega
  | infinity => omega
  | _ => exact ⟨_, _, rfl, fun s => by cases s <;> simp [Token.ofSign]⟩

/-- The signs in front of an operand apply from the inside out. -/
theorem bare_applySigns (ss : List (Sign × Nat)) (e : Expr) :
    (applySigns ss e).bare = (ss.map (·.1)).foldr (fun s e => .signed .none s e) e.bare := by
  induction ss with
  | nil => rfl
  | cons s ss ih =>
    rw [List.map_cons, List.foldr_cons, ← ih]
    rfl

/-- An operand with signs is read if the nested expressions are. -/
theorem signed_complete (h : Complete n 1 nested) : Complete (n + 1) 8 (signed nested) := by
  intro cs ts e rest hn hlexes hd hrest
  obtain ⟨ss, us, a, rfl, rfl, ha⟩ := hd.signs
  obtain ⟨mid, hsigns, hoperand⟩ := hlexes.split
  -- all signs are read before the operand, which starts with none
  have hno : ∀ s r, ¬ Next (ahead mid) (.ofSign s) r := by
    intro s r hnext
    have hhead : ∃ t us', us = t :: us' ∧ ∀ s, t ≠ .ofSign s := by
      rcases ha with ⟨s, rfl, -⟩ | hd
      · exact ⟨_, _, rfl, fun s => by cases s <;> simp [Token.ofSign]⟩
      · obtain ⟨t, us', rfl, ht⟩ := hd.primary_head
        exact ⟨t, us', rfl, fun s => (ht s).1⟩
    obtain ⟨t, us', rfl, ht⟩ := hhead
    cases hoperand with
    | token hnext' _ => exact ht s (hnext'.unique hnext).1
  have hle := hsigns.length_le
  have hread : ∃ rest', ahead rest' = ahead rest ∧
      Reads (spanned (do let x ← signedInfinity; return fun span => .literal span x)
        <|> primary nested) (ahead mid) (·.bare = a) rest' := by
    rcases ha with ⟨s, rfl, rfl⟩ | hd
    · cases hoperand with
      | @token _ m _ _ _ hnext hdone =>
        cases hdone with
        | done hsame =>
          refine ⟨m, hsame, Reads.orElse (Reads.spanned ?_)⟩
          refine (reads_signedInfinity hnext.starts).bind ?_
          rintro _ rfl
          exact .pure _ fun _ => rfl
    · obtain ⟨rest', hsame, hread⟩ := primary_complete h (ahead_ahead mid) (by omega)
        (hoperand.of_ahead (ahead_ahead mid).symm) hd (hrest.mono (by decide))
      refine ⟨rest', hsame, Lacks.orElse (Lacks.spanned (Lacks.bind ?_)) hread⟩
      refine lacks_signedInfinity ?_
      rintro ⟨s, r, hinf⟩
      obtain ⟨t, us', rfl, ht⟩ := hd.primary_head
      cases hoperand with
      | token hnext _ => exact (ht s).2 (hnext.unique (next_infinity hinf)).1
  obtain ⟨rest', hsame, hread⟩ := hread
  refine ⟨rest', hsame, fun offset => ?_⟩
  obtain ⟨ss', offset', hss, hmap⟩ := signsAt_eq hsigns hno offset
  obtain ⟨operand, offset'', hok, hbare⟩ := hread offset'
  refine ⟨applySigns ss' operand, offset'', ?_, ?_⟩
  · have hsigns : Grammar.signs ⟨offset, cs⟩ = .ok (ss', ⟨offset', ahead mid⟩) :=
      congrArg Except.ok hss
    rw [Grammar.signed, bind_apply, hsigns]
    simp only [bind_apply, hok]
    rfl
  · show (applySigns ss' operand).bare = _
    rw [bare_applySigns, hmap, hbare]

/-! ## Operators -/

/-- One step of the loop over operators. -/
theorem chainFrom_step (left : Expr) {operand : Parser Expr} {os : List Operator} {o : Operator}
    {cs m₁ m₂ : List Char} {P : Expr → Prop} (ho : Reads (operatorOf os) (ahead cs) (· = some o) m₁)
    (hoperand : Reads operand m₁ P m₂) (budget offset : Nat) :
    ∃ right offset', P right ∧ chainFrom operand os (budget + 1) left ⟨offset, cs⟩ =
      chainFrom operand os budget (.binary (left.span.cover right.span) left o right)
        ⟨offset', m₂⟩ := by
  obtain ⟨_, offset₁, hspace, -⟩ := reads_spacing cs offset
  obtain ⟨_, offset₂, ho, rfl⟩ := ho offset₁
  obtain ⟨right, offset₃, hright, hP⟩ := hoperand offset₂
  refine ⟨right, offset₃, hP, ?_⟩
  rw [chainFrom, bind_apply, hspace]
  simp only [bind_apply, ho, hright]

/-- The loop ends where no operator of the level comes next. -/
theorem chainFrom_stop (operand : Parser Expr) (left : Expr) {os : List Operator} {cs : List Char}
    (h : Reads (operatorOf os) (ahead cs) (· = none) (ahead cs)) (budget : Nat) :
    Reads (chainFrom operand os (budget + 1) left) cs (· = left) (ahead cs) := by
  refine (reads_spacing cs).bind fun _ _ => h.bind ?_
  rintro _ rfl
  exact .pure _ rfl

/-- A phrase of a level brings the loop over the operators of the level to its tree. -/
theorem chain_steps {operand : Parser Expr} {k : Nat} {os : List Operator} (hos : IsLevel k os)
    (hk : 2 ≤ k ∧ k ≤ 7) (h : Complete n (k + 1) operand) {ts : List Token} {e : Expr}
    (hd : Derives k ts e) {cs mid : List Char} (hn : (ahead cs).length < n)
    (hlexes : Lexes cs ts mid) (hmid : Stops (k + 1) mid) :
    ∃ mid', ahead mid' = ahead mid ∧ ∀ offset, ∃ left offset' budget, left.bare = e
      ∧ (ahead mid).length < budget
      ∧ chain operand os ⟨offset, cs⟩ = chainFrom operand os budget left ⟨offset', mid'⟩ := by
  induction hd generalizing mid with
  | weaker hd _ =>
    obtain ⟨mid', hsame, hread⟩ := h _ _ _ _ hn hlexes hd hmid
    refine ⟨mid', hsame, fun offset => ?_⟩
    obtain ⟨first, offset', hok, hbare⟩ := hread offset
    have hle := length_ahead_le mid'
    refine ⟨first, offset', mid'.length + 1, hbare, by rw [← hsame]; omega, ?_⟩
    rw [chain, bind_apply, hok]
    rfl
  | binary o hl hr ihl _ =>
    -- the loop has come to the left operand, and goes one step further
    obtain ⟨m₁, hls, hmore⟩ := hlexes.split
    cases hmore with
    | @token _ m₂ _ _ _ hnext hrs =>
      obtain ⟨m₁', hsame, hsteps⟩ := ihl hos hk h hls
        (.inr ⟨_, _, hnext, Nat.lt_succ_self o.precedence⟩)
      have h₁ := hls.length_le
      have h₂ := hnext.length_lt
      have h₃ := length_ahead_le m₂
      have h₄ := hrs.length_le
      obtain ⟨mid', hsame', hread⟩ := h m₂ _ _ mid (by omega) hrs hr hmid
      refine ⟨mid', hsame', fun offset => ?_⟩
      obtain ⟨left, offset', budget, hleft, hbudget, hchain⟩ := hsteps offset
      obtain ⟨budget, rfl⟩ : ∃ b, budget = b + 1 := ⟨budget - 1, by omega⟩
      obtain ⟨right, offset'', hright, hstep⟩ := chainFrom_step left
        (hsame ▸ reads_operatorOf hos rfl hnext) hread budget offset'
      refine ⟨_, offset'', budget, ?_, by omega, hchain.trans hstep⟩
      rw [Expr.bare, hleft, hright]
  | _ => omega

/-- A chain of operators of one level is read if the operands are. -/
theorem chain_complete {operand : Parser Expr} {k : Nat} {os : List Operator} (hos : IsLevel k os)
    (hk : 2 ≤ k ∧ k ≤ 7) (h : Complete n (k + 1) operand) : Complete n k (chain operand os) := by
  intro cs ts e rest hn hlexes hd hrest
  obtain ⟨mid, hsame, hsteps⟩ := chain_steps hos hk h hd hn hlexes (hrest.mono (Nat.le_succ k))
  refine ⟨ahead mid, by rw [ahead_ahead, hsame], fun offset => ?_⟩
  obtain ⟨left, offset', budget, hleft, hbudget, hchain⟩ := hsteps offset
  obtain ⟨budget, rfl⟩ : ∃ b, budget = b + 1 := ⟨budget - 1, by omega⟩
  have hnone : ∀ o r, o.precedence = k → ¬ Next (ahead mid) (.operator o) r := by
    intro o r ho hnext
    have : o.precedence < k := (hrest.of_ahead hsame.symm).follows hnext
    omega
  obtain ⟨_, offset'', hok, rfl⟩ :=
    chainFrom_stop operand left (reads_no_operatorOf hos hnone) budget offset'
  exact ⟨_, offset'', hchain.trans hok, hleft⟩

/-! ## Expressions -/

/-- The levels of the operators are read if the nested expressions are. -/
theorem disjunction_complete (h : Complete n 1 nested) :
    Complete (n + 1) 2 (disjunction nested) := by
  have hproduct := chain_complete isLevel_product (by decide) (signed_complete h)
  have hsum := chain_complete isLevel_sum (by decide) hproduct
  have hrelation := chain_complete isLevel_relation (by decide) hsum
  have hequality := chain_complete isLevel_equality (by decide) hrelation
  have hconjunction := chain_complete isLevel_conjunction (by decide) hequality
  exact chain_complete isLevel_disjunction (by decide) hconjunction

/-- A conditional is read if the nested expressions are. -/
theorem conditional_complete (h : Complete n 1 nested) :
    Complete (n + 1) 1 (conditional nested) := by
  intro cs ts e rest hn hlexes hd hrest
  generalize hk : 1 = k at hd
  cases hd with
  | weaker hd =>
    subst hk
    obtain ⟨mid, hsame, hread⟩ := disjunction_complete h cs ts e rest hn hlexes hd
      (hrest.mono (by decide))
    refine ⟨ahead mid, by rw [ahead_ahead, hsame], hread.bind fun condition hcondition => ?_⟩
    refine (reads_spacing mid).bind fun _ _ => ?_
    have hno : (ahead mid).head? ≠ some '?' :=
      (hrest.of_ahead hsame.symm).head_ne (t := .question) rfl (by decide) (Nat.lt_irrefl 1)
    refine (lacks_character hno).optional.bind ?_
    rintro _ rfl
    exact .pure _ hcondition
  | conditional hc hy hn' =>
    obtain ⟨m₁, hcs, hmore⟩ := hlexes.split
    obtain ⟨m₂, hquestion, hmore'⟩ := hmore.uncons rfl
    obtain ⟨m₃, hys, hcolon⟩ := hmore'.split
    obtain ⟨m₄, hcolon', hns⟩ := hcolon.uncons rfl
    have h₁ := hcs.length_le
    have h₂ := hys.length_le
    have h₃ := length_ahead_le m₂
    have h₄ := length_ahead_le m₄
    have hlen := congrArg List.length hquestion
    have hlen' := congrArg List.length hcolon'
    rw [List.length_cons] at hlen hlen'
    have hstops₁ : Stops 2 m₁ := by
      cases hmore with
      | token hnext _ => exact .inr ⟨.question, _, hnext, Nat.lt_succ_self 1⟩
    have hstops₃ : Stops 1 m₃ := by
      cases hcolon with
      | token hnext _ => exact .inr ⟨.colon, _, hnext, trivial⟩
    obtain ⟨m₁', hsame₁, hcondition⟩ := disjunction_complete h cs _ _ m₁ hn hcs hc hstops₁
    obtain ⟨m₃', hsame₃, hyes⟩ := h m₂ _ _ m₃ (by omega) hys hy hstops₃
    obtain ⟨rest', hsame, hno⟩ := h m₄ _ _ rest (by omega) hns hn' hrest
    refine ⟨rest', hsame, hcondition.bind fun c hc => (reads_spacing m₁').bind fun _ _ => ?_⟩
    rw [hsame₁, hquestion]
    refine (reads_character '?' m₂).optional.bind ?_
    rintro _ ⟨_, rfl, -⟩
    refine Reads.labelled (Reads.committed (hyes.bind fun y hy => ?_))
    refine Reads.behind_expected (hsame₃.trans hcolon') (hno.bind fun n hn => .pure _ ?_)
    rw [Expr.bare, hc, hy, hn]
  | binary o => cases o <;> exact absurd hk (by decide)
  | _ => omega

/-- Expressions that are shorter than the depth are read. -/
theorem expressionWithin_complete (depth : Nat) : Complete depth 1 (expressionWithin depth) := by
  induction depth with
  | zero =>
    intro cs ts e rest hn
    exact absurd hn (Nat.not_lt_zero _)
  | succ depth ih =>
    intro cs ts e rest hn hlexes hd hrest
    obtain ⟨rest', hsame, hread⟩ := conditional_complete ih cs ts e rest hn hlexes hd hrest
    exact ⟨rest', hsame, hread.labelled⟩

/-- What derives from the grammar is read as an expression, with the same tree. -/
theorem expression_complete {cs rest : List Char} {ts : List Token} {e : Expr}
    (hlexes : Lexes cs ts rest) (hd : Derives 1 ts e) (hrest : Stops 1 rest) :
    ∃ rest', ahead rest' = ahead rest ∧ Reads expression cs (·.bare = e) rest' := by
  have hle := length_ahead_le cs
  obtain ⟨rest', hsame, hread⟩ :=
    expressionWithin_complete (cs.length + 1) cs ts e rest (by omega) hlexes hd hrest
  exact ⟨rest', hsame, fun offset => hread offset⟩

/-! ## Whole texts -/

/-- A phrase that takes up the text is read as the whole text. -/
theorem reads_complete {α : Type} {p : Parser α} {P : α → Prop} {cs rest : List Char}
    (hrest : ahead rest = []) (h : Reads p cs P rest) : Reads (complete p) cs P [] := by
  refine h.bind fun a ha => (reads_spacing rest).bind fun _ _ => ?_
  rw [hrest]
  exact reads_endOfText.expecting.bind fun _ _ => .pure _ ha

/-- A text that is made of the tokens of a mention is read as the mention. -/
theorem soleMention_complete {cs : List Char} {m : Mention} (h : Lexes cs m.tokens []) :
    Reads soleMention cs (·.1 = m) [] := by
  obtain ⟨rest, hrest, hread⟩ := mention_complete (ahead_ahead cs)
    (h.of_ahead (ahead_ahead cs).symm) (by simp [ahead])
  exact (reads_spacing cs).bind fun _ _ => reads_complete hrest hread

/-- A text that is made of the tokens of a definition is read as the definition. -/
theorem assignment_complete {cs : List Char} {ts : List Token} {a : Assignment}
    (hlexes : Lexes cs ts []) (hd : DerivesAssignment ts a) :
    Reads assignment cs (fun b => b.bare = ⟨a.target, .none, a.body⟩) [] := by
  obtain ⟨us, hbody, rfl⟩ := hd
  obtain ⟨m₁, htarget, hmore⟩ := hlexes.split
  obtain ⟨m₂, hequals, hus⟩ := hmore.uncons rfl
  obtain ⟨m₁', hsame, hmention⟩ := mention_complete (ahead_ahead cs)
    (htarget.of_ahead (ahead_ahead cs).symm) (by rw [hequals]; simp)
  obtain ⟨rest, hrest, hexpression⟩ := expression_complete hus hbody (.inl rfl)
  refine Reads.labelled (reads_complete hrest ((reads_spacing cs).bind fun _ _ => ?_))
  refine hmention.bind ?_
  rintro ⟨m, span⟩ rfl
  refine Reads.behind_expected (hsame.trans hequals) (hexpression.bind fun body hbody => .pure _ ?_)
  rw [Assignment.bare, hbody]

end DerivedStats.Grammar
