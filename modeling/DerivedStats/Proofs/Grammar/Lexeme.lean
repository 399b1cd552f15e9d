import DerivedStats.Proofs.Grammar.Derivation
import DerivedStats.Proofs.Grammar.LongestMatch
import DerivedStats.Proofs.Grammar.Reading

/-!
# Lexemes and tokens

The lexemes of the grammar read tokens: what a lexeme reads is the next token (`…_ok`), and it reads
the next token if that is one of its kind (`reads_…`). As a text has one next token only, the second
half follows from the first one where the lexeme cannot fail.
-/

namespace DerivedStats.Grammar

open DerivedStats.Grammar.Parser

/-! ## Names -/

/-- What is read as an identifier is a name that does not go on. -/
theorem identifier_ok {c c' : Cursor} {n : String} (h : identifier c = .ok (n, c')) :
    ∃ w, IsName w ∧ n = String.ofList w ∧ c.rest = w ++ c'.rest
      ∧ c'.rest.head?.any isNameChar = false := by
  obtain ⟨x, mid, hx, h⟩ := bind_ok h
  obtain ⟨w, mid', hw, h⟩ := bind_ok h
  obtain ⟨rfl, rfl⟩ := Prod.mk.inj (pure_ok h)
  obtain ⟨hstart, hrest⟩ := satisfy_ok hx
  obtain ⟨hrest', hall, hend⟩ := run_ok hw
  exact ⟨x :: w, ⟨x, w, rfl, hstart, hall⟩, rfl, by rw [hrest, hrest']; rfl, hend⟩

theorem mild_identifier : Mild identifier :=
  (mild_satisfy _).bind fun _ => (mild_run _).bind fun _ => mild_pure _

/-- A name is read as an identifier where it ends. -/
theorem reads_identifier {w rest : List Char} (hw : IsName w)
    (hr : rest.head?.any isNameChar = false) :
    Reads identifier (w ++ rest) (· = String.ofList w) rest := by
  obtain ⟨c, cs, rfl, hc, hcs⟩ := hw
  refine (reads_satisfy hc _).bind ?_
  rintro _ rfl
  refine (reads_run hcs hr).bind ?_
  rintro _ rfl
  exact .pure _ rfl

/-- Without a character that starts a name there is no identifier. -/
theorem lacks_identifier {cs : List Char} (h : cs.head?.any isNameStart = false) :
    Lacks identifier cs := by
  refine mild_identifier.lacks fun offset r hr => ?_
  obtain ⟨w, ⟨c, w', rfl, hc, -⟩, -, hrest, -⟩ :=
    identifier_ok (show _ = Except.ok (r.1, r.2) from hr)
  rw [show cs = c :: w' ++ r.2.rest from hrest] at h
  exact absurd hc (by simpa using h)

/-- A text that starts like a name starts with a whole one. -/
theorem exists_name {c : Char} (hc : isNameStart c = true) (cs : List Char) :
    ∃ w rest, c :: cs = w ++ rest ∧ IsName w ∧ rest.head?.any isNameChar = false := by
  obtain ⟨w, rest, rfl, hall, hend⟩ := exists_run (p := isNameChar) cs
  exact ⟨c :: w, rest, rfl, ⟨c, w, rfl, hc, hall⟩, hend⟩

/-- What is read as a qualified name is the next token. -/
theorem qualifiedName_ok {c c' : Cursor} {q : Option String × String}
    (h : qualifiedName c = .ok (q, c')) : Next c.rest (.name q.1 q.2) c'.rest := by
  obtain ⟨n, mid, hn, h⟩ := bind_ok h
  obtain ⟨w, hw, rfl, hrest, hend⟩ := identifier_ok hn
  obtain ⟨o, mid', ho, h⟩ := bind_ok h
  rcases optional_ok ho with ⟨n', rfl, hn'⟩ | ⟨rfl, rfl, failure, hfail⟩
  · obtain ⟨rfl, rfl⟩ := Prod.mk.inj (pure_ok h)
    obtain ⟨_, mid'', hpoint, hn'⟩ := bind_ok hn'
    obtain ⟨w', hw', rfl, hrest', hend'⟩ := identifier_ok hn'
    rw [hrest, character_ok hpoint, hrest']
    exact next_qualified hw hw' hend'
  · obtain ⟨rfl, rfl⟩ := Prod.mk.inj (pure_ok h)
    rw [hrest]
    refine next_name hw hend fun d ds hd => ?_
    -- a name behind a point would have been read as the second part
    cases hstart : isNameStart d with
    | false => rfl
    | true =>
      obtain ⟨w', rest, htext, hw', hend'⟩ := exists_name hstart ds
      have hreads : Reads (do character '.'; identifier) ('.' :: d :: ds) (fun _ => True) rest :=
        (reads_character _ _).bind fun _ _ => htext ▸ (reads_identifier hw' hend').mono
          fun _ _ => trivial
      obtain ⟨a, offset, hok, -⟩ := hreads c'.offset
      rw [← hd, hfail] at hok
      exact nomatch hok

/-- A name that is the next token is read as a qualified name. -/
theorem reads_qualifiedName {cs rest : List Char} {k : Option String} {n : String}
    (h : Next cs (.name k n) rest) : Reads qualifiedName cs (· = (k, n)) rest := by
  cases k with
  | none =>
    obtain ⟨w, hw, rfl, rfl, hend, hpoint⟩ := h.name
    refine (reads_identifier hw hend).bind ?_
    rintro _ rfl
    have hlacks : Lacks (do character '.'; identifier) rest := by
      by_cases hd : rest.head? = some '.'
      · obtain ⟨r, rfl⟩ := List.head?_eq_some_iff.mp hd
        refine (reads_character _ _).bind_lacks fun _ _ => lacks_identifier ?_
        cases r with
        | nil => rfl
        | cons d ds => simpa using hpoint d ds rfl
      · exact (lacks_character hd).bind
    refine hlacks.optional.bind ?_
    rintro _ rfl
    exact .pure _ rfl
  | some c =>
    obtain ⟨w, w', hw, hw', rfl, rfl, rfl, hend⟩ := h.qualified
    refine (reads_identifier hw rfl).bind ?_
    rintro _ rfl
    refine ((reads_character _ _).bind fun _ _ => reads_identifier hw' hend).optional.bind ?_
    rintro _ ⟨_, rfl, rfl⟩
    exact .pure _ rfl

/-! ## Keywords -/

/-- What is read as a keyword is the word, and no name goes on behind it. -/
theorem keyword_ok {w : String} {c c' : Cursor} {u : Unit} (h : keyword w c = .ok (u, c')) :
    c.rest = w.toList ++ c'.rest ∧ c'.rest.head?.any isNameChar = false := by
  unfold keyword at h
  cases hw : word w.toList c with
  | error failure => simp [hw] at h
  | ok r =>
    rw [hw] at h
    simp only at h
    split at h
    · exact absurd h (by simp [fail])
    · next hend =>
      obtain ⟨-, rfl⟩ := Prod.mk.inj (Except.ok.inj h)
      exact ⟨word_ok hw, by simpa using hend⟩

theorem mild_keyword (w : String) : Mild (keyword w) := by
  intro c failure h
  unfold keyword at h
  split at h
  · next hw =>
    obtain rfl := Except.error.inj h
    exact mild_word _ _ _ hw
  · split at h
    · exact mild_fail _ _ h
    · exact nomatch h

/-- A keyword is read where the word ends. -/
theorem reads_keyword {w : String} {rest : List Char} (h : rest.head?.any isNameChar = false) :
    Reads (keyword w) (w.toList ++ rest) (fun _ => True) rest := by
  intro offset
  obtain ⟨u, offset', hw, -⟩ := reads_word w.toList rest offset
  exact ⟨(), offset', by simp [keyword, hw, h], trivial⟩

/-- A keyword is not there if the text starts otherwise or goes on as a name. -/
theorem lacks_keyword {w : String} {cs : List Char}
    (h : ∀ rest, cs = w.toList ++ rest → rest.head?.any isNameChar = true) :
    Lacks (keyword w) cs := by
  refine (mild_keyword w).lacks fun offset r hr => ?_
  obtain ⟨hrest, hend⟩ := keyword_ok (show _ = Except.ok (r.1, r.2) from hr)
  rw [h _ hrest] at hend
  exact nomatch hend

/-! ## Numbers -/

theorem mild_fraction : Mild fraction := (mild_character _).bind fun _ => mild_run1 _

theorem mild_powerOfTen : Mild powerOfTen :=
  (mild_satisfy _).bind fun _ => (mild_satisfy _).optional.bind fun _ =>
    (mild_run1 _).bind fun _ => mild_pure _

theorem mild_number : Mild number :=
  (mild_run1 _).bind fun _ => mild_fraction.optional.bind fun _ =>
    mild_powerOfTen.optional.bind fun _ => mild_pure _

/-- What is read as a fraction is a point and digits that do not go on. -/
theorem fraction_ok {c c' : Cursor} {ds : List Char} (h : fraction c = .ok (ds, c')) :
    c.rest = '.' :: (ds ++ c'.rest) ∧ IsDigits ds ∧ c'.rest.head?.any isDigit = false := by
  obtain ⟨_, mid, hpoint, h⟩ := bind_ok h
  obtain ⟨hrest, hne, hall, hend⟩ := run1_ok h
  exact ⟨by rw [character_ok hpoint, hrest], ⟨hne, hall⟩, hend⟩

/-- What is read as a power of ten is a mark, a sign or none, and digits that do not go on. -/
theorem powerOfTen_ok {c c' : Cursor} {r : Bool × List Char} (h : powerOfTen c = .ok (r, c')) :
    ∃ p, SpellsPower p r.1 r.2 ∧ p ≠ [] ∧ c.rest = p ++ c'.rest
      ∧ c'.rest.head?.any isDigit = false := by
  obtain ⟨mark, mid, hmark, h⟩ := bind_ok h
  obtain ⟨hm, hrest⟩ := satisfy_ok hmark
  simp only [Bool.or_eq_true, decide_eq_true_eq] at hm
  obtain ⟨o, mid', ho, h⟩ := bind_ok h
  obtain ⟨ds, mid'', hds, h⟩ := bind_ok h
  obtain ⟨rfl, rfl⟩ := Prod.mk.inj (pure_ok h)
  obtain ⟨hrest'', hne, hall, hend⟩ := run1_ok hds
  rcases optional_ok ho with ⟨sign, rfl, hsign⟩ | ⟨rfl, rfl, -⟩
  · obtain ⟨hs, hrest'⟩ := satisfy_ok hsign
    simp only [Bool.or_eq_true, decide_eq_true_eq] at hs
    exact ⟨mark :: sign :: ds, .signed hm hs ⟨hne, hall⟩, by simp,
      by rw [hrest, hrest', hrest'']; rfl, hend⟩
  · exact ⟨mark :: ds, .unsigned hm ⟨hne, hall⟩, by simp, by rw [hrest, hrest'']; rfl, hend⟩

/-- Where digits stand, a run of them is read; it may go on behind them. -/
theorem exists_reads_digits {ds : List Char} (h : IsDigits ds) (r : List Char) :
    ∃ rest, Reads (run1 isDigit) (ds ++ r) (fun _ => True) rest := by
  obtain ⟨w, rest, htext, hall, hend⟩ := exists_run (p := isDigit) (ds ++ r)
  refine ⟨rest, htext ▸ (reads_run1 ?_ hall hend).mono fun _ _ => trivial⟩
  rintro rfl
  obtain ⟨d, ds, rfl⟩ := List.exists_cons_of_ne_nil h.1
  rw [← show d :: ds ++ r = rest from htext] at hend
  exact absurd h.head (by simpa using hend)

/-- A point and a digit start a fraction. -/
theorem exists_reads_fraction {ds : List Char} (h : IsDigits ds) (r : List Char) :
    ∃ rest, Reads fraction ('.' :: (ds ++ r)) (fun _ => True) rest := by
  obtain ⟨rest, hrun⟩ := exists_reads_digits h r
  exact ⟨rest, (reads_character _ _).bind fun _ _ => hrun⟩

/-- Wherever a power of ten can be found, one is read. -/
theorem exists_reads_powerOfTen {q ds : List Char} {n : Bool} (h : SpellsPower q n ds)
    (hne : q ≠ []) (r : List Char) :
    ∃ rest, Reads powerOfTen (q ++ r) (fun _ => True) rest := by
  have hmark : ∀ {mark : Char} (cs : List Char), mark = 'e' ∨ mark = 'E' →
      Reads (satisfy fun c => c = 'e' || c = 'E') (mark :: cs) (· = mark) cs :=
    fun cs hm => reads_satisfy (by simpa using hm) cs
  cases h with
  | absent => exact absurd rfl hne
  | unsigned hm hds =>
    obtain ⟨rest, hrun⟩ := exists_reads_digits hds r
    refine ⟨rest, (hmark _ hm).bind fun _ _ => ?_⟩
    -- the digits start with no sign, so the optional sign is left out
    have hlacks : Lacks (satisfy fun c => c = '+' || c = '-') (ds ++ r) := by
      refine (mild_satisfy _).lacks fun offset v hv => ?_
      obtain ⟨hs, hrest⟩ := satisfy_ok (show _ = Except.ok (v.1, v.2) from hv)
      obtain ⟨d, ds, rfl⟩ := List.exists_cons_of_ne_nil hds.1
      obtain ⟨hd, -⟩ := List.cons.inj (show d :: ds ++ r = _ from hrest)
      rw [← hd, Bool.or_eq_true, decide_eq_true_eq, decide_eq_true_eq] at hs
      exact absurd hds.head (by simp [not_isDigit_sign hs])
    exact hlacks.optional.bind fun _ _ => hrun.bind fun _ _ => .pure _ trivial
  | @signed mark sign ds hm hs hds =>
    obtain ⟨rest, hrun⟩ := exists_reads_digits hds r
    refine ⟨rest, (hmark _ hm).bind fun _ _ => ?_⟩
    have hsign : Reads (satisfy fun c => c = '+' || c = '-') (sign :: (ds ++ r)) (· = sign)
        (ds ++ r) := reads_satisfy (by simpa using hs) _
    exact hsign.optional.bind fun _ _ => hrun.bind fun _ _ => .pure _ trivial

/-- What is read as a number is the next token. -/
theorem number_ok {c c' : Cursor} {x : Float} (h : number c = .ok (x, c')) :
    Next c.rest (.number x) c'.rest := by
  obtain ⟨whole, mid, hwhole, h⟩ := bind_ok h
  obtain ⟨hrest, hne, hall, hend⟩ := run1_ok hwhole
  obtain ⟨f, mid₁, hf, h⟩ := bind_ok h
  obtain ⟨p, mid₂, hp, h⟩ := bind_ok h
  obtain ⟨rfl, rfl⟩ := Prod.mk.inj (pure_ok h)
  -- an optional part that was left out is not there, so the number cannot go on
  have hfraction : ∃ w, SpellsFraction w (f.getD []) ∧ mid.rest = w ++ mid₁.rest
      ∧ mid₁.rest.head?.any isDigit = false
      ∧ (w = [] → ∀ ds r, IsDigits ds → mid₁.rest ≠ '.' :: (ds ++ r)) := by
    rcases optional_ok hf with ⟨ds, rfl, hds⟩ | ⟨rfl, rfl, failure, hfail⟩
    · obtain ⟨hrest', hds', hend'⟩ := fraction_ok hds
      exact ⟨'.' :: ds, .present hds', hrest', hend', fun h => nomatch h⟩
    · refine ⟨[], .absent, rfl, hend, fun _ ds r hds htext => ?_⟩
      obtain ⟨rest, hreads⟩ := exists_reads_fraction hds r
      obtain ⟨a, offset, hok, -⟩ := hreads mid.offset
      rw [← htext, hfail] at hok
      exact nomatch hok
  obtain ⟨w, hw, hrest₁, hend₁, hnone₁⟩ := hfraction
  have hpower : ∃ q, SpellsPower q (p.getD (false, [])).1 (p.getD (false, [])).2
      ∧ mid₁.rest = q ++ c'.rest ∧ c'.rest.head?.any isDigit = false
      ∧ (q = [] → ∀ q' n ds r, SpellsPower q' n ds → q' ≠ [] → c'.rest ≠ q' ++ r) := by
    rcases optional_ok hp with ⟨ds, rfl, hds⟩ | ⟨rfl, rfl, failure, hfail⟩
    · obtain ⟨q, hq, hne, hrest', hend'⟩ := powerOfTen_ok hds
      exact ⟨q, hq, hrest', hend', fun h => absurd h hne⟩
    · refine ⟨[], .absent, rfl, hend₁, fun _ q' n ds r hq' hne' htext => ?_⟩
      obtain ⟨rest, hreads⟩ := exists_reads_powerOfTen hq' hne' r
      obtain ⟨a, offset, hok, -⟩ := hreads mid₁.offset
      rw [← htext, hfail] at hok
      exact nomatch hok
  obtain ⟨q, hq, hrest₂, hend₂, hnone₂⟩ := hpower
  rw [hrest, hrest₁, hrest₂]
  refine next_number ⟨hne, hall⟩ hw hq ⟨hend₂, fun hw hq => ?_, hnone₂⟩
  rw [show c'.rest = mid₁.rest by rw [hrest₂, hq]; rfl]
  exact hnone₁ hw

/-- An optional phrase always succeeds if the phrase is mild. -/
theorem Mild.optional_succeeds {α : Type} {p : Parser α} (hp : Mild p) (c : Cursor) :
    ∃ r, Parser.optional p c = .ok r := by
  unfold Parser.optional
  cases hc : p c with
  | ok r => exact ⟨_, rfl⟩
  | error failure => exact ⟨(none, c), by simp [hp c _ hc]⟩

/-- A number that is the next token is read. -/
theorem reads_number {cs rest : List Char} {x : Float} (h : Next cs (.number x) rest) :
    Reads number cs (· = x) rest := by
  intro offset
  cases hc : number ⟨offset, cs⟩ with
  | ok r =>
    obtain ⟨hx, hrest⟩ := h.unique (number_ok (show _ = Except.ok (r.1, r.2) from hc))
    exact ⟨r.1, r.2.offset, by rw [hrest], (Token.number.inj hx).symm⟩
  | error failure =>
    -- the whole part is read, and the two parts behind it are optional
    obtain ⟨whole, f, p, _, _, _, hwhole, -, -, -, htext, -⟩ := h.number
    obtain ⟨rest', hrun⟩ := exists_reads_digits hwhole (f ++ (p ++ rest))
    obtain ⟨_, offset', hok, -⟩ := hrun offset
    obtain ⟨f, hf⟩ := mild_fraction.optional_succeeds ⟨offset', rest'⟩
    obtain ⟨p, hp⟩ := mild_powerOfTen.optional_succeeds f.2
    rw [htext, number, bind_apply, hok] at hc
    simp only [bind_apply, hf, hp] at hc
    exact nomatch hc

/-- Without a digit there is no number. -/
theorem lacks_number {cs : List Char} (h : cs.head?.any isDigit = false) : Lacks number cs := by
  refine mild_number.lacks fun offset r hr => ?_
  have hnext := number_ok (show _ = Except.ok (r.1, r.2) from hr)
  obtain ⟨whole, _, _, _, _, _, hwhole, -, -, -, htext, -⟩ := hnext.number
  obtain ⟨d, ds, rfl⟩ := List.exists_cons_of_ne_nil hwhole.1
  rw [show cs = _ from htext] at h
  exact absurd hwhole.head (by simpa using h)

/-! ## Infinities -/

/-- What is read as an infinity is a sign and a name of the infinity. -/
theorem signedInfinity_ok {c c' : Cursor} {x : Float} (h : signedInfinity c = .ok (x, c')) :
    ∃ s : Sign, x = s.infinity ∧ StartsWith c.rest (.infinity s) c'.rest := by
  have hword : ∀ {w : String} {y : Float} (s : Sign) (v : List Char),
      w.toList = s.symbol.toList ++ v →
      v = "Inf".toList ∨ v = "INF".toList → y = s.infinity →
      (do keyword w; return y : Parser Float) c = .ok (x, c') →
      ∃ s : Sign, x = s.infinity ∧ StartsWith c.rest (.infinity s) c'.rest := by
    intro w y s v hw hv hy hok
    obtain ⟨_, mid, hkey, hok⟩ := bind_ok hok
    obtain ⟨rfl, rfl⟩ := Prod.mk.inj (pure_ok hok)
    obtain ⟨hrest, hend⟩ := keyword_ok hkey
    exact ⟨s, hy, _, .infinity s hv, by rw [hrest, hw], fun _ _ => hend⟩
  rcases orElse_ok h with h | ⟨-, h⟩
  · exact hword .plus "Inf".toList (by decide) (.inl rfl) rfl h
  rcases orElse_ok h with h | ⟨-, h⟩
  · exact hword .plus "INF".toList (by decide) (.inr rfl) rfl h
  rcases orElse_ok h with h | ⟨-, h⟩
  · exact hword .minus "Inf".toList (by decide) (.inl rfl) rfl h
  · exact hword .minus "INF".toList (by decide) (.inr rfl) rfl h

theorem mild_signedInfinity : Mild signedInfinity := by
  have hword : ∀ (w : String) (x : Float), Mild (do keyword w; return x) :=
    fun w x => (mild_keyword w).bind fun _ => mild_pure x
  exact (hword _ _).orElse ((hword _ _).orElse ((hword _ _).orElse (hword _ _)))

/-- An infinity that the text starts with is read. -/
theorem reads_signedInfinity {cs rest : List Char} {s : Sign}
    (h : StartsWith cs (.infinity s) rest) :
    Reads signedInfinity cs (· = s.infinity) rest := by
  obtain ⟨w, hspell, rfl, hend⟩ := h
  have hread : ∀ {w : String} {x : Float},
      Reads (do keyword w; return x) (w.toList ++ rest) (· = x) rest :=
    (reads_keyword (hend s rfl)).bind fun _ _ => .pure _ rfl
  have hlack : ∀ {w : String} {x : Float} {cs : List Char},
      (∀ r, cs ≠ w.toList ++ r) → Lacks (do keyword w; return x) cs :=
    fun h => (lacks_keyword fun r hr => absurd hr (h r)).bind
  cases hspell with
  | symbol h => simp [Token.symbol?] at h
  | infinity _ hw =>
    cases s <;> rcases hw with rfl | rfl
    · exact (hread (w := "+Inf")).orElse
    · refine (hlack ?_).orElse (hread (w := "+INF")).orElse
      intro r
      simp [Sign.symbol]
    · refine (hlack ?_).orElse ((hlack ?_).orElse (hread (w := "-Inf")).orElse) <;>
        (intro r; simp [Sign.symbol])
    · refine (hlack ?_).orElse ((hlack ?_).orElse ((hlack ?_).orElse (hread (w := "-INF")))) <;>
        (intro r; simp [Sign.symbol])

/-- Where the text does not open with an infinity none is read. -/
theorem lacks_signedInfinity {cs : List Char} (h : ¬ OpensInfinity cs) : Lacks signedInfinity cs := by
  refine mild_signedInfinity.lacks fun offset r hr => h ?_
  obtain ⟨s, -, hstart⟩ := signedInfinity_ok (show _ = Except.ok (r.1, r.2) from hr)
  exact ⟨s, _, hstart⟩

/-- The look ahead finds an infinity if the text opens with one. -/
theorem startsInfinity_iff {cs : List Char} : startsInfinity cs = true ↔ OpensInfinity cs := by
  constructor
  · intro h
    unfold startsInfinity at h
    split at h
    · next r hr =>
      obtain ⟨s, -, hstart⟩ := signedInfinity_ok (show _ = Except.ok (r.1, r.2) from hr)
      exact ⟨s, _, hstart⟩
    · exact nomatch h
  · rintro ⟨s, rest, h⟩
    obtain ⟨_, _, hok, -⟩ := reads_signedInfinity h 0
    rw [startsInfinity, hok]

/-! ## Operators -/

/-- The operators are those of one level, and none comes before one that its symbol starts. -/
structure IsLevel (k : Nat) (os : List Operator) : Prop where
  mem : ∀ o, o ∈ os ↔ o.precedence = k
  order : os.Pairwise fun a b => ¬ a.symbol.toList <+: b.symbol.toList

/-- Only the two comparisons by order start longer symbols, those of the same level. -/
theorem longer_symbol {o : Operator} {t : Token} {w : List Char} (h : t.symbol? = some w)
    (hpre : o.symbol.toList <+: w) (hlen : o.symbol.toList.length < w.length) :
    ∃ o' : Operator, t = .operator o' ∧ o'.precedence = o.precedence := by
  cases t with
  | number _ | infinity _ | name _ _ | quoted _ => simp [Token.symbol?] at h
  | operator o' =>
    obtain rfl := Option.some.inj h
    refine ⟨o', rfl, ?_⟩
    revert hpre hlen
    cases o <;> cases o' <;> decide
  | _ =>
    obtain rfl := Option.some.inj h
    cases o <;> exact absurd hlen (by decide)

/-- An operator of the level is read if it is the next token, and otherwise none is. -/
theorem operatorOf_ok {k : Nat} {os : List Operator} (hos : IsLevel k os) {c c' : Cursor}
    {r : Option Operator} (h : operatorOf os c = .ok (r, c')) :
    (r = none ∧ c = c' ∧ ∀ o rest, o.precedence = k → ¬ Next c.rest (.operator o) rest)
      ∨ ∃ o, r = some o ∧ o.precedence = k ∧ Next c.rest (.operator o) c'.rest := by
  unfold operatorOf at h
  split at h
  · next hinf =>
    obtain ⟨rfl, rfl⟩ := Prod.mk.inj (Except.ok.inj h)
    exact .inl ⟨rfl, rfl, fun o rest _ hnext =>
      absurd (startsInfinity_iff.mp hinf) (hnext.symbol rfl).2⟩
  · next hinf =>
    split at h
    · next hnone =>
      obtain ⟨rfl, rfl⟩ := Prod.mk.inj (Except.ok.inj h)
      refine .inl ⟨rfl, rfl, fun o rest hk hnext => ?_⟩
      have hfalse := List.find?_eq_none.mp hnone o ((hos.mem o).mpr hk)
      rw [(hnext.symbol rfl).1] at hfalse
      exact hfalse (List.isPrefixOf_iff_prefix.mpr ⟨rest, rfl⟩)
    · next o hsome =>
      obtain ⟨rfl, rfl⟩ := Prod.mk.inj (Except.ok.inj h)
      obtain ⟨hpre, as, bs, rfl, has⟩ := List.find?_eq_some_iff_append.mp hsome
      have hk : o.precedence = k := (hos.mem o).mp (by simp)
      obtain ⟨rest, hrest⟩ := List.isPrefixOf_iff_prefix.mp hpre
      have hdrop : c.rest.drop o.symbol.length = rest := by
        rw [← hrest, ← String.length_toList, List.drop_left]
      refine .inr ⟨o, rfl, hk, ?_⟩
      show Next c.rest (.operator o) (c.rest.drop o.symbol.length)
      rw [hdrop, ← hrest]
      refine next_symbol rfl (by rwa [hrest, ← startsInfinity_iff]) fun t w hw hlen hw' => ?_
      -- a longer symbol is one of the same level, and that one would have been found before
      obtain ⟨o', rfl, ho'⟩ := longer_symbol hw
        (List.prefix_of_prefix_length_le ⟨rest, rfl⟩ hw' (Nat.le_of_lt hlen)) hlen
      obtain rfl := Option.some.inj hw
      have hmem := (hos.mem o').mpr (ho'.trans hk)
      rw [hrest, ← List.isPrefixOf_iff_prefix] at hw'
      rcases List.mem_append.mp hmem with hmem | hmem
      · have hfirst := has o' hmem
        rw [hw'] at hfirst
        exact nomatch hfirst
      rcases List.mem_cons.mp hmem with rfl | hmem
      · exact absurd hlen (Nat.lt_irrefl _)
      · have hpair := (List.pairwise_append.mp hos.order).2.1
        refine (List.pairwise_cons.mp hpair).1 o' hmem ?_
        exact List.prefix_of_prefix_length_le ⟨rest, rfl⟩
          (hrest ▸ List.isPrefixOf_iff_prefix.mp hw') (Nat.le_of_lt hlen)

/-- Looking for an operator always succeeds. -/
theorem operatorOf_succeeds (os : List Operator) (c : Cursor) : ∃ r, operatorOf os c = .ok r := by
  unfold operatorOf
  split
  · exact ⟨_, rfl⟩
  · split <;> exact ⟨_, rfl⟩

/-- An operator of the level that is the next token is read. -/
theorem reads_operatorOf {k : Nat} {os : List Operator} (hos : IsLevel k os) {o : Operator}
    (ho : o.precedence = k) {cs rest : List Char} (h : Next cs (.operator o) rest) :
    Reads (operatorOf os) cs (· = some o) rest := by
  intro offset
  obtain ⟨r, hr⟩ := operatorOf_succeeds os ⟨offset, cs⟩
  rcases operatorOf_ok hos (show _ = Except.ok (r.1, r.2) from hr) with
    ⟨-, -, hnone⟩ | ⟨o', hsome, -, hnext⟩
  · exact absurd h (hnone o rest ho)
  · obtain ⟨heq, hrest⟩ := h.unique hnext
    exact ⟨r.1, r.2.offset, by rw [hr, hrest], by rw [hsome, Token.operator.inj heq]⟩

/-- Without an operator of the level at the front, none is read. -/
theorem reads_no_operatorOf {k : Nat} {os : List Operator} (hos : IsLevel k os) {cs : List Char}
    (h : ∀ o rest, o.precedence = k → ¬ Next cs (.operator o) rest) :
    Reads (operatorOf os) cs (· = none) cs := by
  intro offset
  obtain ⟨r, hr⟩ := operatorOf_succeeds os ⟨offset, cs⟩
  rcases operatorOf_ok hos (show _ = Except.ok (r.1, r.2) from hr) with
    ⟨hnone, hc, -⟩ | ⟨o', -, hk, hnext⟩
  · exact ⟨r.1, offset, by rw [hr, hc], hnone⟩
  · exact absurd hnext (h o' _ hk)

/-! ## Aggregates -/

/-- What is read as an aggregate is its name. -/
theorem aggregateName_ok {c c' : Cursor} {a : Aggregate} (h : aggregateName c = .ok (a, c')) :
    c.rest = a.name.toList ++ c'.rest := by
  have hword : ∀ b : Aggregate,
      (do word b.name.toList; return b : Parser Aggregate) c = .ok (a, c') →
      c.rest = a.name.toList ++ c'.rest := by
    intro b hok
    obtain ⟨_, mid, hw, hok⟩ := bind_ok hok
    obtain ⟨rfl, rfl⟩ := Prod.mk.inj (pure_ok hok)
    exact word_ok hw
  simp only [aggregateName, Aggregate.all, List.foldr] at h
  rcases orElse_ok h with h | ⟨-, h⟩
  · exact hword _ h
  rcases orElse_ok h with h | ⟨-, h⟩
  · exact hword _ h
  rcases orElse_ok h with h | ⟨-, h⟩
  · exact hword _ h
  rcases orElse_ok h with h | ⟨-, h⟩
  · exact hword _ h
  · exact nomatch h

theorem mild_aggregateName : Mild aggregateName := by
  have hword : ∀ a : Aggregate, Mild (do word a.name.toList; return a) :=
    fun a => (mild_word _).bind fun _ => mild_pure a
  exact (hword _).orElse ((hword _).orElse ((hword _).orElse ((hword _).orElse mild_fail)))

/-- The name of an aggregate is read. -/
theorem reads_aggregateName (a : Aggregate) (rest : List Char) :
    Reads aggregateName (a.name.toList ++ rest) (· = a) rest := by
  have hread : ∀ {b : Aggregate}, Reads (do word b.name.toList; return b)
      (b.name.toList ++ rest) (· = b) rest :=
    (reads_word _ rest).bind fun _ _ => .pure _ rfl
  have hlack : ∀ {b : Aggregate}, ¬ b.name.toList <+: a.name.toList ++ rest →
      Lacks (do word b.name.toList; return b) (a.name.toList ++ rest) := by
    intro b hb
    refine ((mild_word _).lacks fun offset r hr => hb ?_).bind
    exact ⟨r.2.rest, (word_ok (show _ = Except.ok (r.1, r.2) from hr)).symm⟩
  cases a
  · exact hread.orElse
  · refine (hlack ?_).orElse hread.orElse
    simp [Aggregate.name]
  · refine (hlack ?_).orElse ((hlack ?_).orElse hread.orElse) <;> simp [Aggregate.name]
  · refine (hlack ?_).orElse ((hlack ?_).orElse ((hlack ?_).orElse hread.orElse)) <;>
      simp [Aggregate.name]

theorem isName_aggregate (a : Aggregate) : IsName a.name.toList := by
  cases a <;> exact ⟨_, _, rfl, by decide, List.all_eq_true.mp (by decide)⟩

/-! ## Dimension values -/

/-- What is read as a dimension value is one. -/
theorem dimensionValue_ok {c c' : Cursor} {n : String} (h : dimensionValue c = .ok (n, c')) :
    ∃ v, IsValue v ∧ n = String.ofList v ∧ c.rest = v ++ c'.rest := by
  rcases orElse_ok h with h | ⟨-, h⟩
  · obtain ⟨_, mid, hstar, h⟩ := bind_ok h
    obtain ⟨rfl, rfl⟩ := Prod.mk.inj (pure_ok h)
    exact ⟨['*'], .inl rfl, rfl, character_ok hstar⟩
  · obtain ⟨v, mid, hv, h⟩ := bind_ok h
    obtain ⟨rfl, rfl⟩ := Prod.mk.inj (pure_ok h)
    obtain ⟨hrest, hne, hall, -⟩ := run1_ok hv
    exact ⟨v, .inr ⟨hne, hall⟩, rfl, hrest⟩

/-- A dimension value is read in front of its closing quote. -/
theorem reads_dimensionValue {v : List Char} (hv : IsValue v) (rest : List Char) :
    Reads dimensionValue (v ++ '"' :: rest) (· = String.ofList v) ('"' :: rest) := by
  rcases hv with rfl | ⟨hne, hall⟩
  · refine Reads.orElse ((reads_character _ _).bind fun _ _ => ?_)
    exact .pure _ rfl
  · have hlacks : Lacks (character '*') (v ++ '"' :: rest) := by
      obtain ⟨c, cs, rfl⟩ := List.exists_cons_of_ne_nil hne
      refine lacks_character fun h => ?_
      obtain rfl : c = '*' := by simpa using h
      exact absurd (hall '*' (by simp)) (by decide)
    refine hlacks.bind.orElse ((reads_run1 hne hall rfl).bind ?_)
    rintro _ rfl
    exact .pure _ rfl

/-! ## Signs -/

/-- A sign is written with one character. -/
theorem sign_of_symbol {s : Sign} {w : List Char} (h : (Token.ofSign s).symbol? = some w) :
    ∃ c, w = [c] ∧ sign? c = some s := by
  cases s <;> (obtain rfl := Option.some.inj h; exact ⟨_, rfl, rfl⟩)

/-- A sign is the next token where no infinity stands. -/
theorem next_sign {c : Char} {s : Sign} {rest : List Char} (hs : sign? c = some s)
    (hinf : ¬ OpensInfinity (c :: rest)) : Next (c :: rest) (.ofSign s) rest := by
  unfold sign? at hs
  split at hs
  · next hc =>
    obtain rfl := Option.some.inj hs
    subst hc
    exact next_character rfl (fun _ => hinf) fun h => absurd h (by decide)
  · split at hs
    · next hc =>
      obtain rfl := Option.some.inj hs
      subst hc
      exact next_character rfl (fun _ => hinf) fun h => absurd h (by decide)
    · exact nomatch hs

/-- Spacing is skipped in front of signs. -/
theorem signsAt_ahead (offset : Nat) (cs : List Char) :
    ∃ offset', signsAt offset cs = signsAt offset' (ahead cs) := by
  induction cs generalizing offset with
  | nil => exact ⟨offset, rfl⟩
  | cons c cs ih =>
    cases hc : isSpacing c with
    | true =>
      obtain ⟨offset', h⟩ := ih (offset + 1)
      refine ⟨offset', ?_⟩
      rw [signsAt, hc, ahead_cons_of_isSpacing hc]
      exact h
    | false => exact ⟨offset, by rw [ahead_of_head (by simpa using hc)]⟩

/-- Where no sign comes next, none is read. -/
theorem signsAt_none {cs : List Char} (hcs : ahead cs = cs)
    (h : ∀ s rest, ¬ Next cs (.ofSign s) rest) (offset : Nat) :
    signsAt offset cs = ([], ⟨offset, cs⟩) := by
  cases cs with
  | nil => rfl
  | cons c cs =>
    have hc : isSpacing c = false := by
      have := head_ahead (c :: cs)
      rw [hcs] at this
      simpa using this
    rw [signsAt, hc]
    by_cases hinf : startsInfinity (c :: cs) = true
    · simp [hinf]
    · cases hs : sign? c with
      | none => simp
      | some s => exact absurd (next_sign hs (by rwa [← startsInfinity_iff])) (h s cs)

/-- All signs in front of an operand are read. -/
theorem signsAt_eq {cs mid : List Char} {ss : List Sign} (h : Lexes cs (ss.map Token.ofSign) mid)
    (hmid : ∀ s rest, ¬ Next (ahead mid) (.ofSign s) rest) (offset : Nat) :
    ∃ ss' offset', signsAt offset cs = (ss', ⟨offset', ahead mid⟩) ∧ ss'.map (·.1) = ss := by
  induction ss generalizing cs offset with
  | nil =>
    obtain ⟨offset', hoffset⟩ := signsAt_ahead offset cs
    cases h with
    | done hsame =>
      refine ⟨[], offset', ?_, rfl⟩
      rw [hoffset, hsame]
      exact signsAt_none (ahead_ahead mid) hmid offset'
  | cons s ss ih =>
    cases h with
    | @token _ m _ _ _ hnext hmore =>
      obtain ⟨offset', hoffset⟩ := signsAt_ahead offset cs
      obtain ⟨ss', offset'', hmore', hmap⟩ := ih hmore (offset' + 1)
      obtain ⟨w, hw⟩ : ∃ w, (Token.ofSign s).symbol? = some w := by cases s <;> exact ⟨_, rfl⟩
      obtain ⟨c, rfl, hc⟩ := sign_of_symbol hw
      obtain ⟨htext, hinf⟩ := hnext.symbol hw
      have hspace : isSpacing c = false := by
        have := head_ahead cs
        rw [htext] at this
        simpa using this
      refine ⟨(s, offset') :: ss', offset'', ?_, by simp [hmap]⟩
      rw [hoffset, htext]
      show signsAt offset' (c :: m) = _
      have hno : startsInfinity (c :: m) = false := by
        rw [Bool.eq_false_iff, ne_eq, startsInfinity_iff]
        rwa [htext] at hinf
      rw [signsAt, hspace, hno, hc, hmore']
      rfl

end DerivedStats.Grammar
