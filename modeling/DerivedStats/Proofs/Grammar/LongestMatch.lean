import Mathlib.Order.Nat
import DerivedStats.Proofs.Grammar.Token

/-!
# The longest token

Which token a text starts with, one kind of token after the other: a lemma `next_…` that finds the
token where a word stands that cannot go on, and its converse `Next.…` that says what stands where
the token was found.

Main results: `Next.unique` (a text starts with at most one token) and `Lexes.unique` (a text is made
of the tokens of at most one list).
-/

namespace DerivedStats.Grammar

/-! ## Numbers -/

theorem IsDigits.head {c : Char} {cs : List Char} (h : IsDigits (c :: cs)) : isDigit c = true :=
  h.2 c List.mem_cons_self

theorem not_isDigit_mark {c : Char} (h : c = 'e' ∨ c = 'E') : isDigit c = false := by
  rcases h with rfl | rfl <;> decide

theorem not_isDigit_sign {c : Char} (h : c = '+' ∨ c = '-') : isDigit c = false := by
  rcases h with rfl | rfl <;> decide

/-- Digits do not start with a sign. -/
theorem not_isDigits_sign {c : Char} {cs : List Char} (h : c = '+' ∨ c = '-') :
    ¬ IsDigits (c :: cs) :=
  fun hdigits => absurd hdigits.head (by simp [not_isDigit_sign h])

/-- A word spells one fraction. -/
theorem SpellsFraction.unique {f a b : List Char} (ha : SpellsFraction f a)
    (hb : SpellsFraction f b) : a = b := by
  cases ha <;> cases hb <;> rfl

/-- A word spells one power of ten. -/
theorem SpellsPower.unique {p a b : List Char} {m n : Bool} (ha : SpellsPower p m a)
    (hb : SpellsPower p n b) : m = n ∧ a = b := by
  cases ha with
  | absent => cases hb; exact ⟨rfl, rfl⟩
  | unsigned hm h =>
    cases hb with
    | unsigned _ _ => exact ⟨rfl, rfl⟩
    | signed _ hs _ => exact absurd h (not_isDigits_sign hs)
  | signed hm hs h =>
    cases hb with
    | unsigned _ h' => exact absurd h' (not_isDigits_sign hs)
    | signed _ _ _ => exact ⟨rfl, rfl⟩

/-- A power of ten that is there starts with its mark. -/
theorem SpellsPower.head {p ds : List Char} {n : Bool} (h : SpellsPower p n ds) (hne : p ≠ []) :
    ∃ mark r, p = mark :: r ∧ (mark = 'e' ∨ mark = 'E') := by
  cases h with
  | absent => exact absurd rfl hne
  | unsigned hm _ => exact ⟨_, _, rfl, hm⟩
  | signed hm _ _ => exact ⟨_, _, rfl, hm⟩

/-- In front of a character that is no mark, the power of ten is missing. -/
theorem SpellsPower.eq_nil_of_head {p rest ds : List Char} {n : Bool} {q : Char → Bool}
    (h : SpellsPower p n ds) (hq : ∀ {c : Char}, c = 'e' ∨ c = 'E' → q c = false)
    (hhead : (p ++ rest).head?.any q = true) : p = [] := by
  by_contra hne
  obtain ⟨mark, r, rfl, hm⟩ := h.head hne
  exact absurd (show q mark = true from hhead) (by simp [hq hm])

theorem not_point_mark {c : Char} (h : c = 'e' ∨ c = 'E') : (c == '.') = false := by
  rcases h with rfl | rfl <;> decide

/-- Behind its three parts a number cannot go on. -/
structure NumberEnds (f p rest : List Char) : Prop where
  digit : rest.head?.any isDigit = false
  fraction : f = [] → p = [] → ∀ ds r, IsDigits ds → rest ≠ '.' :: (ds ++ r)
  power : p = [] → ∀ q n ds r, SpellsPower q n ds → q ≠ [] → rest ≠ q ++ r

/-- At the end of the text no number goes on. -/
theorem NumberEnds.nil (f p : List Char) : NumberEnds f p [] where
  digit := rfl
  fraction _ _ _ _ _ := by simp
  power _ q _ _ r _ hne := by
    intro h
    exact hne (List.append_eq_nil_iff.mp h.symm).1

/-- Behind the whole part comes no digit. -/
theorem head_fraction_power {f p rest ds es : List Char} {n : Bool} (hf : SpellsFraction f ds)
    (hp : SpellsPower p n es) (hr : rest.head?.any isDigit = false) :
    (f ++ (p ++ rest)).head?.any isDigit = false := by
  have hpower : (p ++ rest).head?.any isDigit = false := by
    by_cases hne : p = []
    · rw [hne]
      exact hr
    · obtain ⟨mark, r, rfl, hm⟩ := hp.head hne
      exact not_isDigit_mark hm
  cases hf with
  | absent => exact hpower
  | present _ => rfl

/-- Digits and a sign do not start the same text. -/
theorem IsDigits.append_ne_sign {ds : List Char} (h : IsDigits ds) {sign : Char}
    (hs : sign = '+' ∨ sign = '-') (r r' : List Char) : ds ++ r ≠ sign :: r' := by
  intro heq
  obtain ⟨c, cs, rfl⟩ := List.exists_cons_of_ne_nil h.1
  obtain ⟨rfl, -⟩ := List.cons.inj heq
  exact not_isDigits_sign hs h

/-- Digits that no digit follows are the longest ones. -/
theorem digits_longest {ds ds' rest rest' : List Char} (hds : IsDigits ds) (hds' : IsDigits ds')
    (hdigit : rest.head?.any isDigit = false) (h : ds' ++ rest' = ds ++ rest) :
    (ds' = ds ∧ rest' = rest) ∨ rest.length < rest'.length := by
  rcases run_cases hds'.2 hds.2 hdigit h with hsame | ⟨-, hlt⟩
  · exact .inl hsame
  · have hlen := congrArg List.length h
    rw [List.length_append, List.length_append] at hlen
    exact .inr (by omega)

/-- The power of ten is the longest one where no number goes on. -/
theorem power_longest {p rest p' rest' ds ds' : List Char} {n n' : Bool} (hp : SpellsPower p n ds)
    (hdigit : rest.head?.any isDigit = false)
    (hpower : p = [] → ∀ q n ds r, SpellsPower q n ds → q ≠ [] → rest ≠ q ++ r)
    (hp' : SpellsPower p' n' ds') (h : p' ++ rest' = p ++ rest) :
    (p' = p ∧ rest' = rest) ∨ rest.length < rest'.length := by
  cases hp' with
  | absent =>
    rw [List.nil_append] at h
    by_cases hne : p = []
    · exact .inl ⟨hne.symm, by rw [h, hne]; rfl⟩
    · obtain ⟨mark, r, rfl, -⟩ := hp.head hne
      exact .inr (by rw [h, List.length_append, List.length_cons]; omega)
  | unsigned hm he' =>
    cases hp with
    | absent => exact absurd h.symm (hpower rfl _ _ _ _ (.unsigned hm he') (by simp))
    | unsigned _ he =>
      obtain ⟨rfl, htail⟩ := List.cons.inj h
      exact (digits_longest he he' hdigit htail).imp_left fun ⟨h1, h2⟩ => ⟨by rw [h1], h2⟩
    | signed _ hs _ =>
      obtain ⟨-, htail⟩ := List.cons.inj h
      exact absurd htail (he'.append_ne_sign hs _ _)
  | signed hm hs he' =>
    cases hp with
    | absent => exact absurd h.symm (hpower rfl _ _ _ _ (.signed hm hs he') (by simp))
    | unsigned _ he =>
      obtain ⟨-, htail⟩ := List.cons.inj h
      exact absurd htail.symm (he.append_ne_sign hs _ _)
    | signed _ _ he =>
      simp only [List.cons_append, List.cons.injEq] at h
      obtain ⟨rfl, rfl, htail⟩ := h
      exact (digits_longest he he' hdigit htail).imp_left fun ⟨h1, h2⟩ => ⟨by rw [h1], h2⟩

/-- A number that cannot go on is the longest one at its place, and the only one of that length. -/
theorem number_longest {whole f p rest whole' f' p' rest' ds es ds' es' : List Char} {n n' : Bool}
    (hw : IsDigits whole) (hf : SpellsFraction f ds) (hp : SpellsPower p n es)
    (ends : NumberEnds f p rest) (hw' : IsDigits whole') (hf' : SpellsFraction f' ds')
    (hp' : SpellsPower p' n' es')
    (h : whole' ++ (f' ++ (p' ++ rest')) = whole ++ (f ++ (p ++ rest))) :
    (whole' = whole ∧ f' = f ∧ p' = p ∧ rest' = rest) ∨ rest.length < rest'.length := by
  have hlen := congrArg List.length h
  simp only [List.length_append] at hlen
  rcases run_cases hw'.2 hw.2 (head_fraction_power hf hp ends.digit) h with
    ⟨rfl, htail⟩ | ⟨hhead, hlt⟩
  · -- the same whole part: the fractions are compared next, and then the powers
    cases hf' with
    | absent =>
      cases hf with
      | absent =>
        exact (power_longest hp ends.digit ends.power hp' htail).imp_left
          fun ⟨h1, h2⟩ => ⟨rfl, rfl, h1, h2⟩
      | present hd =>
        have htail : p' ++ rest' = _ := htail
        obtain rfl := hp'.eq_nil_of_head not_point_mark (by rw [htail]; rfl)
        refine .inr ?_
        simp only [List.length_nil, List.length_cons] at hlen
        omega
    | present hd' =>
      cases hf with
      | absent =>
        have htail : _ = p ++ rest := htail
        obtain rfl := hp.eq_nil_of_head not_point_mark (by rw [← htail]; rfl)
        exact absurd htail.symm (ends.fraction rfl rfl _ _ hd')
      | present hd =>
        obtain ⟨-, htail⟩ := List.cons.inj htail
        have hph : (p ++ rest).head?.any isDigit = false :=
          head_fraction_power .absent hp ends.digit
        rcases run_cases hd'.2 hd.2 hph htail with ⟨rfl, hrest⟩ | ⟨hhead, hlt⟩
        · exact (power_longest hp ends.digit ends.power hp' hrest).imp_left
            fun ⟨h1, h2⟩ => ⟨rfl, rfl, h1, h2⟩
        · obtain rfl := hp'.eq_nil_of_head not_isDigit_mark hhead
          refine .inr ?_
          simp only [List.length_nil, List.length_cons] at hlen
          omega
  · -- a shorter whole part is followed by a digit, so the other two parts are missing
    cases hf' with
    | absent =>
      obtain rfl := hp'.eq_nil_of_head not_isDigit_mark hhead
      refine .inr ?_
      rw [List.length_nil] at hlen
      omega
    | present _ => exact absurd (show isDigit '.' = true from hhead) (by decide)

/-- A number that cannot go on is the next token. -/
theorem next_number {whole f p rest fraction power : List Char} {negative : Bool}
    (hw : IsDigits whole) (hf : SpellsFraction f fraction) (hp : SpellsPower p negative power)
    (ends : NumberEnds f p rest) :
    Next (whole ++ (f ++ (p ++ rest)))
      (.number (Decimal.ofText whole fraction negative power).toFloat) rest where
  starts := ⟨_, .number hw hf hp, by simp, by simp⟩
  longest := by
    intro t' rest' h'
    -- the first character is a digit, so any token here is a number
    obtain ⟨c, cs, rfl⟩ := List.exists_cons_of_ne_nil hw.1
    obtain ⟨d, ds, he, hd⟩ := h'.heads
    obtain ⟨rfl, -⟩ := List.cons.inj he
    obtain ⟨x, rfl⟩ := hd.eq_number hw.head
    obtain ⟨w', hspell, htext, -⟩ := h'
    cases hspell with
    | symbol h => simp [Token.symbol?] at h
    | number hw' hf' hp' =>
      simp only [List.append_assoc] at htext
      rcases number_longest hw hf hp ends hw' hf' hp' htext.symm with ⟨-, -, -, hrest⟩ | hlt
      · rw [hrest]
      · exact Nat.le_of_lt hlt

theorem IsDigits.concat {ds : List Char} {c : Char} (h : IsDigits ds) (hc : isDigit c = true) :
    IsDigits (ds ++ [c]) := by
  refine ⟨by simp, fun d hd => ?_⟩
  rcases List.mem_append.mp hd with hd | hd
  · exact h.2 d hd
  · rw [List.mem_singleton.mp hd]
    exact hc

/-- A digit behind a number makes a longer number of it. -/
theorem exists_spells_concat {whole f p fraction power : List Char} {negative : Bool} {c : Char}
    (hw : IsDigits whole) (hf : SpellsFraction f fraction) (hp : SpellsPower p negative power)
    (hc : isDigit c = true) : ∃ x, Spells (whole ++ (f ++ p) ++ [c]) (.number x) := by
  cases hp with
  | absent =>
    cases hf with
    | absent => exact ⟨_, by simpa using Spells.number (hw.concat hc) .absent .absent⟩
    | present hd => exact ⟨_, by simpa using Spells.number hw (.present (hd.concat hc)) .absent⟩
  | unsigned hm hd => exact ⟨_, by simpa using Spells.number hw hf (.unsigned hm (hd.concat hc))⟩
  | signed hm hs hd =>
    exact ⟨_, by simpa using Spells.number hw hf (.signed hm hs (hd.concat hc))⟩

/-- A number token is read in its three parts, and cannot go on. -/
theorem Next.number {cs rest : List Char} {x : Float} (h : Next cs (.number x) rest) :
    ∃ whole f p fraction negative power, IsDigits whole ∧ SpellsFraction f fraction
      ∧ SpellsPower p negative power ∧ NumberEnds f p rest
      ∧ cs = whole ++ (f ++ (p ++ rest))
      ∧ x = (Decimal.ofText whole fraction negative power).toFloat := by
  obtain ⟨⟨w, hspell, rfl, -⟩, hlongest⟩ := h
  cases hspell with
  | symbol h => simp [Token.symbol?] at h
  | @number whole f fraction p power negative hw hf hp =>
    refine ⟨whole, f, p, fraction, negative, power, hw, hf, hp, ?_, by simp, rfl⟩
    have hlonger : ∀ {v r : List Char} {y : Float}, Spells v (.number y) →
        whole ++ (f ++ p) ++ rest = v ++ r → ¬ r.length < rest.length :=
      fun hs he => Nat.not_lt.mpr (hlongest _ _ ⟨_, hs, he, by simp⟩)
    refine ⟨?_, ?_, ?_⟩
    · cases rest with
      | nil => rfl
      | cons c cs =>
        cases hc : isDigit c with
        | false => exact hc
        | true =>
          obtain ⟨y, hy⟩ := exists_spells_concat hw hf hp hc
          exact absurd (by simp) (hlonger (r := cs) hy (by simp))
    · rintro rfl rfl ds r hd rfl
      exact absurd (by simp only [List.length_cons, List.length_append]; omega)
        (hlonger (r := r) (.number hw (.present hd) .absent) (by simp))
    · rintro rfl q n ds r hq hne rfl
      have hpos := List.length_pos_iff.mpr hne
      exact absurd (by simp only [List.length_append]; omega)
        (hlonger (r := r) (.number hw hf hq) (by simp))

/-! ## Names -/

theorem IsName.all {w : List Char} (h : IsName w) : ∀ c ∈ w, isNameChar c = true := by
  obtain ⟨c, cs, rfl, hc, hcs⟩ := h
  intro d hd
  rcases List.mem_cons.mp hd with rfl | hd
  · exact isNameChar_of_isNameStart hc
  · exact hcs d hd

/-- A name may go on with any character of names. -/
theorem IsName.concat {w : List Char} {c : Char} (h : IsName w) (hc : isNameChar c = true) :
    IsName (w ++ [c]) := by
  obtain ⟨d, ds, rfl, hd, hds⟩ := h
  refine ⟨d, ds ++ [c], rfl, hd, fun x hx => ?_⟩
  rcases List.mem_append.mp hx with hx | hx
  · exact hds x hx
  · rw [List.mem_singleton.mp hx]
    exact hc

theorem isName_singleton {c : Char} (h : isNameStart c = true) : IsName [c] :=
  ⟨c, [], rfl, h, by simp⟩

theorem isName_infinity {w : List Char} (h : w = "Inf".toList ∨ w = "INF".toList) : IsName w := by
  rcases h with rfl | rfl
  · exact ⟨'I', ['n', 'f'], rfl, by decide, List.all_eq_true.mp (by decide)⟩
  · exact ⟨'I', ['N', 'F'], rfl, by decide, List.all_eq_true.mp (by decide)⟩

/-- A name that cannot go on, and is no category, is the next token. -/
theorem next_name {w rest : List Char} (hw : IsName w) (hr : rest.head?.any isNameChar = false)
    (hpoint : ∀ c cs, rest = '.' :: c :: cs → isNameStart c = false) :
    Next (w ++ rest) (.name none (String.ofList w)) rest where
  starts := ⟨_, .name hw, rfl, by simp⟩
  longest := by
    intro t' rest' h'
    obtain ⟨c, cs, rfl, hc, -⟩ := id hw
    obtain ⟨d, ds, he, hd⟩ := h'.heads
    obtain ⟨rfl, -⟩ := List.cons.inj he
    obtain ⟨k, n, rfl⟩ := hd.eq_name hc
    obtain ⟨w', hspell, htext, -⟩ := h'
    have hlen := congrArg List.length htext
    cases hspell with
    | symbol h => simp [Token.symbol?] at h
    | name hw' =>
      rcases run_cases hw'.all hw.all hr htext.symm with ⟨-, hrest⟩ | ⟨-, hlt⟩
      · rw [hrest]
      · simp only [List.length_append] at hlen
        omega
    | @qualified c' w' hc' hw' =>
      -- the point behind the name would have to be that of the longer one
      rw [List.append_assoc] at htext
      obtain ⟨-, htail⟩ := run_unique hc'.all hw.all rfl hr htext.symm
      obtain ⟨d', ds', rfl, hd', -⟩ := hw'
      exact absurd hd' (by simp [hpoint d' _ htail.symm])

/-- A name with its category is the next token if it cannot go on. -/
theorem next_qualified {c w rest : List Char} (hc : IsName c) (hw : IsName w)
    (hr : rest.head?.any isNameChar = false) :
    Next (c ++ '.' :: (w ++ rest)) (.name (some (String.ofList c)) (String.ofList w)) rest where
  starts := ⟨_, .qualified hc hw, by simp, by simp⟩
  longest := by
    intro t' rest' h'
    obtain ⟨a, as, rfl, ha, -⟩ := id hc
    obtain ⟨d, ds, he, hd⟩ := h'.heads
    obtain ⟨rfl, -⟩ := List.cons.inj he
    obtain ⟨k, n, rfl⟩ := hd.eq_name ha
    obtain ⟨w', hspell, htext, -⟩ := h'
    have hlen := congrArg List.length htext
    simp only [List.length_append, List.length_cons] at hlen
    cases hspell with
    | symbol h => simp [Token.symbol?] at h
    | name hw' =>
      rcases run_cases hw'.all hc.all rfl htext.symm with ⟨-, hrest⟩ | ⟨-, hlt⟩
      · rw [hrest]
        simp
        omega
      · simp only [List.length_cons] at hlt
        omega
    | @qualified c' w' hc' hw' =>
      rw [List.append_assoc] at htext
      obtain ⟨-, htail⟩ := run_unique hc'.all hc.all rfl rfl htext.symm
      simp only [List.cons_append, List.cons.injEq, true_and] at htail
      rcases run_cases hw'.all hw.all hr htail with ⟨-, hrest⟩ | ⟨-, hlt⟩
      · rw [hrest]
      · have hlen' := congrArg List.length htail
        simp only [List.length_append] at hlen'
        omega

/-- Where a name is found no other character of names follows, and no second part. -/
theorem Next.name {cs rest : List Char} {n : String} (h : Next cs (.name none n) rest) :
    ∃ w, IsName w ∧ n = String.ofList w ∧ cs = w ++ rest ∧ rest.head?.any isNameChar = false
      ∧ ∀ c cs, rest = '.' :: c :: cs → isNameStart c = false := by
  obtain ⟨⟨w, hspell, rfl, -⟩, hlongest⟩ := h
  cases hspell with
  | symbol h => simp [Token.symbol?] at h
  | name hw =>
    refine ⟨w, hw, rfl, rfl, ?_, ?_⟩
    · cases rest with
      | nil => rfl
      | cons c cs =>
        cases hc : isNameChar c with
        | false => exact hc
        | true =>
          have := hlongest _ cs ⟨_, .name (hw.concat hc), by simp, by simp⟩
          exact absurd this (by simp)
    · rintro c cs rfl
      cases hc : isNameStart c with
      | false => rfl
      | true =>
        have := hlongest _ cs ⟨_, .qualified hw (isName_singleton hc), by simp, by simp⟩
        simp only [List.length_cons] at this
        omega

/-- Where a name with its category is found no other character of names follows. -/
theorem Next.qualified {cs rest : List Char} {c n : String} (h : Next cs (.name (some c) n) rest) :
    ∃ k w, IsName k ∧ IsName w ∧ c = String.ofList k ∧ n = String.ofList w
      ∧ cs = k ++ '.' :: (w ++ rest) ∧ rest.head?.any isNameChar = false := by
  obtain ⟨⟨w, hspell, rfl, -⟩, hlongest⟩ := h
  cases hspell with
  | symbol h => simp [Token.symbol?] at h
  | @qualified k w hk hw =>
    refine ⟨k, w, hk, hw, rfl, rfl, by simp, ?_⟩
    cases rest with
    | nil => rfl
    | cons d ds =>
      cases hd : isNameChar d with
      | false => exact hd
      | true =>
        have := hlongest _ ds ⟨_, .qualified hk (hw.concat hd), by simp, by simp⟩
        exact absurd this (by simp)

/-! ## Dimension values -/

/-- There is no quote in a dimension value. -/
theorem IsValue.no_quote {v : List Char} (h : IsValue v) : ∀ c ∈ v, (c != '"') = true := by
  rcases h with rfl | ⟨-, h⟩
  · exact List.all_eq_true.mp (by decide)
  · intro c hc
    have hv := h c hc
    rw [bne_iff_ne]
    rintro rfl
    exact absurd hv (by decide)

/-- A dimension value in quotes is the next token. -/
theorem next_quoted {v rest : List Char} (hv : IsValue v) :
    Next ('"' :: (v ++ '"' :: rest)) (.quoted (String.ofList v)) rest where
  starts := ⟨_, .quoted hv, by simp, by simp⟩
  longest := by
    intro t' rest' h'
    obtain ⟨d, ds, he, hd⟩ := h'.heads
    obtain ⟨rfl, -⟩ := List.cons.inj he
    obtain ⟨n, rfl⟩ := hd.eq_quoted
    obtain ⟨w', hspell, htext, -⟩ := h'
    cases hspell with
    | symbol h => simp [Token.symbol?] at h
    | quoted hv' =>
      simp only [List.cons_append, List.append_assoc, List.nil_append, List.cons.injEq,
        true_and] at htext
      obtain ⟨-, htail⟩ := run_unique hv'.no_quote hv.no_quote rfl rfl htext.symm
      rw [(List.cons.inj htail).2]

/-- Where a dimension value is found it stands in quotes. -/
theorem Next.quoted {cs rest : List Char} {n : String} (h : Next cs (.quoted n) rest) :
    ∃ v, IsValue v ∧ n = String.ofList v ∧ cs = '"' :: (v ++ '"' :: rest) := by
  obtain ⟨⟨w, hspell, rfl, -⟩, -⟩ := h
  cases hspell with
  | symbol h => simp [Token.symbol?] at h
  | quoted hv => exact ⟨_, hv, rfl, by simp⟩

/-! ## Symbols and infinities -/

/-- The text starts with a word for an infinity. -/
def OpensInfinity (cs : List Char) : Prop := ∃ s rest, StartsWith cs (.infinity s) rest

/-- Symbols have at most two characters. -/
theorem symbol_length_le {t : Token} {w : List Char} (h : t.symbol? = some w) : w.length ≤ 2 := by
  cases t with
  | number _ | infinity _ | name _ _ | quoted _ => simp [Token.symbol?] at h
  | operator o =>
    obtain rfl := Option.some.inj h
    cases o <;> decide
  | _ =>
    obtain rfl := Option.some.inj h
    decide

/-- Different tokens have different symbols. -/
theorem symbol_injective {t t' : Token} {w : List Char} (h : t.symbol? = some w)
    (h' : t'.symbol? = some w) : t = t' := by
  cases t with
  | number _ | infinity _ | name _ _ | quoted _ => simp [Token.symbol?] at h
  | operator o =>
    obtain rfl := Option.some.inj h
    cases o <;> cases t' with
    | number _ | infinity _ | name _ _ | quoted _ => simp [Token.symbol?] at h'
    | operator o' => cases o' <;> first | rfl | exact absurd (Option.some.inj h') (by decide)
    | _ => exact absurd (Option.some.inj h') (by decide)
  | _ =>
    obtain rfl := Option.some.inj h
    cases t' with
    | number _ | infinity _ | name _ _ | quoted _ => simp [Token.symbol?] at h'
    | operator o' => cases o' <;> exact absurd (Option.some.inj h') (by decide)
    | _ => first | rfl | exact absurd (Option.some.inj h') (by decide)

theorem not_isNameStart_sign {c : Char} (h : c = '+' ∨ c = '-') : isNameStart c = false := by
  rcases h with rfl | rfl <;> decide

/-- An infinity is spelled with four characters. -/
theorem infinity_length {w : List Char} {s : Sign} (h : Spells w (.infinity s)) : w.length = 4 := by
  cases h with
  | symbol h => simp [Token.symbol?] at h
  | infinity _ h => rcases h with rfl | rfl <;> cases s <;> rfl

/-- A symbol is the next token if no longer symbol and no infinity stands there. -/
theorem next_symbol {t : Token} {w rest : List Char} (h : t.symbol? = some w)
    (hinf : ¬ OpensInfinity (w ++ rest))
    (hlong : ∀ (t' : Token) (w' : List Char), t'.symbol? = some w' → w.length < w'.length →
      ¬ w' <+: w ++ rest) :
    Next (w ++ rest) t rest where
  starts := ⟨w, .symbol h, rfl, fun s hs => by simp [hs, Token.symbol?] at h⟩
  longest := by
    intro t' rest' h'
    obtain ⟨c, cs, rfl, hdigit, hname, hquote, -⟩ := symbol_head h
    obtain ⟨d, ds, he, hd⟩ := h'.heads
    obtain ⟨rfl, -⟩ := List.cons.inj he
    have hstart := h'
    obtain ⟨w', hspell, htext, -⟩ := h'
    have hlen := congrArg List.length htext
    simp only [List.length_append] at hlen
    cases hspell with
    | symbol h' =>
      by_contra hlt
      exact hlong _ _ h' (by omega) ⟨rest', htext.symm⟩
    | number => exact absurd (show isDigit c = true from hd) (by simp [hdigit])
    | infinity s => exact absurd ⟨s, rest', hstart⟩ hinf
    | name | qualified => exact absurd (show isNameStart c = true from hd) (by simp [hname])
    | quoted => exact absurd hd hquote

/-- A symbol of one character starts a longer one only together with `=`. -/
theorem longer_than_character {t t' : Token} {c : Char} {w : List Char} (h : t.symbol? = some [c])
    (h' : t'.symbol? = some w) (hlen : 1 < w.length) (hpre : [c] <+: w) :
    w = [c, '='] ∧ (c = '=' ∨ c = '<' ∨ c = '>') := by
  have hno : ∀ d, d = '|' ∨ d = '&' ∨ d = '!' → t.symbol? ≠ some [d] := by
    rintro d (rfl | rfl | rfl) <;> cases t with
    | number _ | infinity _ | name _ _ | quoted _ => simp [Token.symbol?]
    | operator o => cases o <;> decide
    | _ => decide
  obtain ⟨r, hr⟩ := hpre
  cases t' with
  | operator o' =>
    obtain rfl := Option.some.inj h'
    cases o' with
    | or => exact absurd h (hno c (.inl (List.cons.inj hr).1))
    | and => exact absurd h (hno c (.inr (.inl (List.cons.inj hr).1)))
    | notEqual => exact absurd h (hno c (.inr (.inr (List.cons.inj hr).1)))
    | equal =>
      obtain rfl := (List.cons.inj hr).1
      exact ⟨rfl, .inl rfl⟩
    | lessOrEqual =>
      obtain rfl := (List.cons.inj hr).1
      exact ⟨rfl, .inr (.inl rfl)⟩
    | greaterOrEqual =>
      obtain rfl := (List.cons.inj hr).1
      exact ⟨rfl, .inr (.inr rfl)⟩
    | _ => exact absurd hlen (by decide)
  | number _ | infinity _ | name _ _ | quoted _ => simp [Token.symbol?] at h'
  | _ =>
    obtain rfl := Option.some.inj h'
    exact absurd hlen (by decide)

/-- What starts with an infinity starts with a sign. -/
theorem OpensInfinity.head {c : Char} {cs : List Char} (h : OpensInfinity (c :: cs)) :
    c = '+' ∨ c = '-' := by
  obtain ⟨s, rest, hstart⟩ := h
  obtain ⟨d, ds, he, hd⟩ := hstart.heads
  obtain ⟨rfl, -⟩ := List.cons.inj he
  cases s
  · exact .inl hd
  · exact .inr hd

/-- A symbol of one character is the next token if no longer one stands there. -/
theorem next_character {t : Token} {c : Char} {rest : List Char} (h : t.symbol? = some [c])
    (hsign : c = '+' ∨ c = '-' → ¬ OpensInfinity (c :: rest))
    (hequals : c = '=' ∨ c = '<' ∨ c = '>' → rest.head? ≠ some '=') :
    Next (c :: rest) t rest := by
  refine next_symbol (w := [c]) h (fun hinf => hsign hinf.head hinf) fun t' w' hw' hlen hpre => ?_
  have hone : [c] <+: w' :=
    List.prefix_of_prefix_length_le ⟨rest, rfl⟩ hpre (Nat.le_of_lt hlen)
  obtain ⟨rfl, hc⟩ := longer_than_character h hw' hlen hone
  obtain ⟨r, hr⟩ := hpre
  obtain rfl : '=' :: r = rest := by simpa using hr
  exact hequals hc rfl

/-- Where a symbol is found it stands there, and no infinity does. -/
theorem Next.symbol {cs rest w : List Char} {t : Token} (h : Next cs t rest)
    (hw : t.symbol? = some w) : cs = w ++ rest ∧ ¬ OpensInfinity cs := by
  have htext : cs = w ++ rest := by
    obtain ⟨⟨w', hspell, rfl, -⟩, -⟩ := h
    cases hspell with
    | symbol h => rw [Option.some.inj (h.symm.trans hw)]
    | _ => simp [Token.symbol?] at hw
  refine ⟨htext, ?_⟩
  rintro ⟨s, rest', hinf⟩
  have hle := h.longest _ _ hinf
  obtain ⟨w', hspell, htext', -⟩ := hinf
  have hlen := congrArg List.length (htext.symm.trans htext')
  simp only [List.length_append, infinity_length hspell] at hlen
  have := symbol_length_le hw
  omega

/-- An infinity is the next token wherever it stands. -/
theorem next_infinity {cs rest : List Char} {s : Sign} (h : StartsWith cs (.infinity s) rest) :
    Next cs (.infinity s) rest where
  starts := h
  longest := by
    intro t' rest' h'
    obtain ⟨c, ds, rfl, hc⟩ := h.heads
    obtain ⟨c', ds', he, hc'⟩ := h'.heads
    obtain ⟨rfl, -⟩ := List.cons.inj he
    obtain ⟨w, hspell, htext, -⟩ := h
    obtain ⟨w', hspell', htext', -⟩ := h'
    have hlen := congrArg List.length (htext.symm.trans htext')
    simp only [List.length_append, infinity_length hspell] at hlen
    have hsign : c = '+' ∨ c = '-' := by cases s <;> simp_all [Token.Heads]
    cases hspell' with
    | symbol h =>
      have := symbol_length_le h
      omega
    | number => exact absurd (show isDigit c = true from hc') (by simp [not_isDigit_sign hsign])
    | infinity s' h =>
      have := infinity_length (.infinity s' h)
      omega
    | name | qualified =>
      exact absurd (show isNameStart c = true from hc') (by simp [not_isNameStart_sign hsign])
    | quoted => rcases hsign with h | h <;> exact absurd (hc'.symm.trans h) (by decide)

/-! ## Uniqueness -/

/-- A number is spelt by one list of parts. -/
theorem Spells.number_unique {w : List Char} {x y : Float} (h : Spells w (.number x))
    (h' : Spells w (.number y)) : x = y := by
  generalize hw : w = v at h'
  cases h with
  | symbol h => simp [Token.symbol?] at h
  | @number whole f fraction p power negative hwhole hf hp =>
    cases h' with
    | symbol h => simp [Token.symbol?] at h
    | @number whole' f' fraction' p' power' negative' hwhole' hf' hp' =>
      have htext : whole' ++ (f' ++ (p' ++ [])) = whole ++ (f ++ (p ++ [])) := by
        simpa using hw.symm
      rcases number_longest hwhole hf hp (.nil f p) hwhole' hf' hp' htext with
        ⟨rfl, rfl, rfl, -⟩ | hlt
      · obtain rfl := hf.unique hf'
        obtain ⟨rfl, rfl⟩ := hp.unique hp'
        rfl
      · exact absurd hlt (by simp)

/-- A word with a point in it is no name, so a name is spelt in one way. -/
theorem Spells.name_unique {w : List Char} {c c' : Option String} {n n' : String}
    (h : Spells w (.name c n)) (h' : Spells w (.name c' n')) : c = c' ∧ n = n' := by
  have hpoint : ∀ {k v u : List Char}, IsName u → u ≠ k ++ '.' :: v := by
    rintro k v u hu rfl
    exact absurd (hu.all '.' (by simp)) (by decide)
  generalize hw : w = v at h'
  cases h with
  | symbol h => simp [Token.symbol?] at h
  | name hn =>
    cases h' with
    | symbol h => simp [Token.symbol?] at h
    | name _ => exact ⟨rfl, by rw [hw]⟩
    | qualified _ _ => exact absurd hw (hpoint hn)
  | qualified hk hn =>
    cases h' with
    | symbol h => simp [Token.symbol?] at h
    | name hn' => exact absurd hw.symm (hpoint hn')
    | qualified hk' _ =>
      obtain ⟨rfl, htail⟩ := run_unique hk.all hk'.all rfl rfl hw
      obtain rfl := (List.cons.inj htail).2
      exact ⟨rfl, rfl⟩

/-- A word spells one dimension value. -/
theorem Spells.quoted_unique {w : List Char} {n n' : String} (h : Spells w (.quoted n))
    (h' : Spells w (.quoted n')) : n = n' := by
  generalize hw : w = v at h'
  cases h with
  | symbol h => simp [Token.symbol?] at h
  | quoted _ =>
    cases h' with
    | symbol h => simp [Token.symbol?] at h
    | quoted _ => rw [List.append_cancel_right (List.cons.inj hw).2]

/-- A word spells at most one token. -/
theorem Spells.unique {w : List Char} {t t' : Token} (h : Spells w t) (h' : Spells w t') :
    t = t' := by
  obtain ⟨c, cs, hwc, hc⟩ := h.heads
  obtain ⟨c', cs', hwc', hc'⟩ := h'.heads
  obtain ⟨rfl, -⟩ := List.cons.inj (hwc.symm.trans hwc')
  -- the first character tells the kind of the token, but for infinities and signs: these differ in
  -- their lengths
  cases t with
  | number x =>
    obtain ⟨y, rfl⟩ := hc'.eq_number hc
    rw [h.number_unique h']
  | name k n =>
    obtain ⟨k', n', rfl⟩ := hc'.eq_name hc
    obtain ⟨rfl, rfl⟩ := h.name_unique h'
    rfl
  | quoted n =>
    obtain rfl : c = '"' := hc
    obtain ⟨n', rfl⟩ := hc'.eq_quoted
    rw [h.quoted_unique h']
  | infinity s =>
    have hlen := infinity_length h
    cases t' with
    | number y =>
      obtain ⟨_, he⟩ := hc.eq_number hc'
      exact nomatch he
    | name k n =>
      obtain ⟨_, _, he⟩ := hc.eq_name hc'
      exact nomatch he
    | quoted n =>
      obtain rfl : c = '"' := hc'
      obtain ⟨_, he⟩ := hc.eq_quoted
      exact nomatch he
    | infinity s' =>
      cases s <;> cases s' <;> first
        | rfl
        | (obtain rfl : c = _ := hc; exact absurd (show _ = _ from hc') (by decide))
    | _ =>
      cases h' with
      | symbol hs =>
        have := symbol_length_le hs
        omega
  | _ =>
    cases h with
    | symbol hs =>
      obtain ⟨_, _, he, hdigit, hname, hquote, -⟩ := symbol_head hs
      obtain ⟨rfl, -⟩ := List.cons.inj (hwc.symm.trans he)
      cases h' with
      | symbol hs' => exact symbol_injective hs hs'
      | number => exact absurd (show isDigit c = true from hc') (by simp [hdigit])
      | infinity s hs' =>
        have := infinity_length (.infinity s hs')
        have := symbol_length_le hs
        omega
      | name | qualified => exact absurd (show isNameStart c = true from hc') (by simp [hname])
      | quoted => exact absurd hc' hquote

/-- A text starts with at most one token. -/
theorem Next.unique {cs rest rest' : List Char} {t t' : Token} (h : Next cs t rest)
    (h' : Next cs t' rest') : t = t' ∧ rest = rest' := by
  have hle := h.longest _ _ h'.starts
  have hle' := h'.longest _ _ h.starts
  obtain ⟨w, hspell, rfl, -⟩ := h.starts
  obtain ⟨w', hspell', htext, -⟩ := h'.starts
  obtain ⟨rfl, rfl⟩ := List.append_inj' htext (by omega)
  exact ⟨hspell.unique hspell', rfl⟩

theorem Next.length_lt {cs rest : List Char} {t : Token} (h : Next cs t rest) :
    rest.length < cs.length :=
  h.starts.length_lt

/-- A token starts where the text does: there is no spacing in front of it. -/
theorem Next.ahead_eq {cs rest : List Char} {t : Token} (h : Next cs t rest) : ahead cs = cs := by
  obtain ⟨c, ds, rfl, hc⟩ := h.starts.heads
  exact ahead_of_head hc.not_isSpacing

/-! ## Lists of tokens -/

/-- Tokens leave no longer text than they are read from. -/
theorem Lexes.length_le {cs rest : List Char} {ts : List Token} (h : Lexes cs ts rest) :
    (ahead rest).length ≤ (ahead cs).length := by
  induction h with
  | done h => rw [h]
  | @token cs mid _ _ _ h _ ih =>
    have := h.length_lt
    have := length_ahead_le mid
    omega

/-- A text with a token in front of the rest is not the rest. -/
theorem Lexes.ahead_ne {cs mid rest : List Char} {t : Token} {ts : List Token}
    (h : Lexes mid ts rest) (hnext : Next (ahead cs) t mid) : ahead cs ≠ ahead rest := by
  intro hsame
  have h1 := hnext.length_lt
  have h2 := h.length_le
  have h3 := length_ahead_le mid
  rw [hsame] at h1
  omega

/-- A text up to a given rest is made of one list of tokens. -/
theorem Lexes.unique {cs rest : List Char} {ts us : List Token} (h : Lexes cs ts rest)
    (h' : Lexes cs us rest) : ts = us := by
  induction h generalizing us with
  | done h =>
    cases h' with
    | done => rfl
    | token hnext hmore => exact absurd h (hmore.ahead_ne hnext)
  | token hnext hmore ih =>
    cases h' with
    | done h => exact absurd h (hmore.ahead_ne hnext)
    | token hnext' hmore' =>
      obtain ⟨rfl, rfl⟩ := hnext.unique hnext'
      rw [ih hmore']

/-- Spacing in front does not count. -/
theorem Lexes.of_ahead {cs cs' rest : List Char} {ts : List Token} (h : Lexes cs ts rest)
    (hsame : ahead cs = ahead cs') : Lexes cs' ts rest := by
  cases h with
  | done h => exact .done (hsame.symm.trans h)
  | token hnext hmore => exact .token (hsame ▸ hnext) hmore

/-- Tokens behind tokens are the tokens of the whole text. -/
theorem Lexes.append {cs mid rest : List Char} {ts us : List Token} (h : Lexes cs ts mid)
    (h' : Lexes mid us rest) : Lexes cs (ts ++ us) rest := by
  induction h with
  | done h => exact h'.of_ahead h.symm
  | token hnext _ ih => exact .token hnext (ih h')

/-- Between any two of the tokens there is a place. -/
theorem Lexes.split {cs rest : List Char} {ts us : List Token} (h : Lexes cs (ts ++ us) rest) :
    ∃ mid, Lexes cs ts mid ∧ Lexes mid us rest := by
  induction ts generalizing cs with
  | nil => exact ⟨cs, .done rfl, h⟩
  | cons t ts ih =>
    cases h with
    | token hnext hmore =>
      obtain ⟨mid, hts, hus⟩ := ih hmore
      exact ⟨mid, .token hnext hts, hus⟩

/-- One token, with spacing in front of it or not. -/
theorem Lexes.single {cs rest : List Char} {t : Token} (h : Next (ahead cs) t rest) :
    Lexes cs [t] rest :=
  .token h (.done rfl)

end DerivedStats.Grammar
