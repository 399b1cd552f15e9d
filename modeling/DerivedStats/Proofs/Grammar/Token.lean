import DerivedStats.Decimal.Basic
import DerivedStats.Grammar.Alphabet
import DerivedStats.Syntax.Operator

/-!
# Tokens

The grammar reads characters; its language is easier to say in tokens. This file says which words
spell which token (`Spells`), which token a text starts with (`Next`, the longest one that fits) and
which tokens a text is made of (`Lexes`, with spacing before, between and behind them). Nothing here
mentions the parsers.

A `+` or `-` with `Inf` or `INF` directly behind it is one token, unless that word is the start of a
longer name; so this is the one token that looks at the character behind it. A category and a name
joined by a point are one token, and so is a dimension value with its quotes: there is no spacing
inside a token.

A word of one kind of token starts with another character than a word of another kind
(`Token.Heads`), but for a sign and the infinity behind it.
-/

namespace DerivedStats.Grammar

/-- A token of the expression language. -/
inductive Token where
  /-- A number with its value. -/
  | number (value : Float)
  /-- A word for an infinity. -/
  | infinity (sign : Sign)
  /-- A name, and the category that a point joins to it. -/
  | name (category : Option String) (name : String)
  /-- A dimension value in its quotes. -/
  | quoted (value : String)
  /-- An operator; the signs are the tokens of addition and subtraction. -/
  | operator (o : Operator)
  | equals
  | question
  | colon
  | comma
  | point
  | openParen
  | closeParen
  | openBrace
  | closeBrace
deriving DecidableEq

/-- The token that a sign is written with. -/
def Token.ofSign : Sign → Token
  | .plus => .operator .add
  | .minus => .operator .subtract

/-- The word of a token that has only one. -/
def Token.symbol? : Token → Option (List Char)
  | number _ | infinity _ | name _ _ | quoted _ => none
  | operator o => some o.symbol.toList
  | equals => some ['=']
  | question => some ['?']
  | colon => some [':']
  | comma => some [',']
  | point => some ['.']
  | openParen => some ['(']
  | closeParen => some [')']
  | openBrace => some ['\x7b']
  | closeBrace => some ['\x7d']

/-! ## Words -/

/-- One or more digits. -/
def IsDigits (w : List Char) : Prop := w ≠ [] ∧ ∀ c ∈ w, isDigit c = true

/-- A letter or underscore, then letters, digits and underscores. -/
def IsName (w : List Char) : Prop :=
  ∃ c cs, w = c :: cs ∧ isNameStart c = true ∧ ∀ d ∈ cs, isNameChar d = true

/-- The wildcard, or characters of a dimension value. -/
def IsValue (w : List Char) : Prop := w = ['*'] ∨ (w ≠ [] ∧ ∀ c ∈ w, isValueChar c = true)

/-- The word is a fraction with the given digits, or there is none. -/
inductive SpellsFraction : List Char → List Char → Prop where
  | absent : SpellsFraction [] []
  | present {ds : List Char} (h : IsDigits ds) : SpellsFraction ('.' :: ds) ds

/-- The word is a power of ten, with a minus sign or not and with the given digits, or there is
none. -/
inductive SpellsPower : List Char → Bool → List Char → Prop where
  | absent : SpellsPower [] false []
  | unsigned {mark : Char} {ds : List Char} (hm : mark = 'e' ∨ mark = 'E') (h : IsDigits ds) :
      SpellsPower (mark :: ds) false ds
  | signed {mark sign : Char} {ds : List Char} (hm : mark = 'e' ∨ mark = 'E')
      (hs : sign = '+' ∨ sign = '-') (h : IsDigits ds) :
      SpellsPower (mark :: sign :: ds) (sign == '-') ds

/-- The word spells the token. -/
inductive Spells : List Char → Token → Prop where
  | symbol {t : Token} {w : List Char} (h : t.symbol? = some w) : Spells w t
  | number {whole f fraction p power : List Char} {negative : Bool} (hw : IsDigits whole)
      (hf : SpellsFraction f fraction) (hp : SpellsPower p negative power) :
      Spells (whole ++ (f ++ p))
        (.number (Decimal.ofText whole fraction negative power).toFloat)
  | infinity (s : Sign) {w : List Char} (h : w = "Inf".toList ∨ w = "INF".toList) :
      Spells (s.symbol.toList ++ w) (.infinity s)
  | name {w : List Char} (h : IsName w) : Spells w (.name none (String.ofList w))
  | qualified {c w : List Char} (hc : IsName c) (h : IsName w) :
      Spells (c ++ '.' :: w) (.name (some (String.ofList c)) (String.ofList w))
  | quoted {v : List Char} (h : IsValue v) : Spells ('"' :: (v ++ ['"'])) (.quoted (String.ofList v))

/-- The text starts with a word for the token, and `rest` follows. -/
def StartsWith (cs : List Char) (t : Token) (rest : List Char) : Prop :=
  ∃ w, Spells w t ∧ cs = w ++ rest ∧ ∀ s, t = .infinity s → rest.head?.any isNameChar = false

/-- The token is the longest one that the text starts with. -/
structure Next (cs : List Char) (t : Token) (rest : List Char) : Prop where
  starts : StartsWith cs t rest
  longest : ∀ t' rest', StartsWith cs t' rest' → rest.length ≤ rest'.length

/-- The text behind the spacing at its start. -/
def ahead (cs : List Char) : List Char := cs.dropWhile isSpacing

/-- The text is made of the tokens, each the longest one at its place, up to `rest`. Spacing in front
of a token and in front of `rest` does not count. -/
inductive Lexes : List Char → List Token → List Char → Prop where
  | done {cs rest : List Char} (h : ahead cs = ahead rest) : Lexes cs [] rest
  | token {cs mid rest : List Char} {t : Token} {ts : List Token} (h : Next (ahead cs) t mid)
      (more : Lexes mid ts rest) : Lexes cs (t :: ts) rest

/-! ## Characters and runs -/

theorem isNameStart_of_isDigit {c : Char} (h : isDigit c = true) : isNameStart c = false := by
  have hne : c ≠ '_' := by
    rintro rfl
    revert h
    decide
  simp only [isDigit, Bool.and_eq_true, decide_eq_true_eq, Char.le_def,
    UInt32.le_iff_toNat_le] at h
  simp only [isNameStart, isLetter, Bool.or_eq_false_iff, Bool.and_eq_false_iff,
    decide_eq_false_iff_not, Char.le_def, UInt32.le_iff_toNat_le]
  have h0 : ('0' : Char).val.toNat = 48 := rfl
  have h9 : ('9' : Char).val.toNat = 57 := rfl
  have hA : ('A' : Char).val.toNat = 65 := rfl
  have ha : ('a' : Char).val.toNat = 97 := rfl
  exact ⟨⟨by omega, by omega⟩, hne⟩

theorem isNameChar_of_isDigit {c : Char} (h : isDigit c = true) : isNameChar c = true := by
  simp [isNameChar, h]

theorem isNameChar_of_isNameStart {c : Char} (h : isNameStart c = true) : isNameChar c = true := by
  simp [isNameChar, h]

/-- Two runs of one class at the start of a text: if the second one cannot go on, then the first one
is the same run or stops before a character of the class. -/
theorem run_cases {p : Char → Bool} {w r w' r' : List Char} (hw' : ∀ c ∈ w', p c = true)
    (hw : ∀ c ∈ w, p c = true) (hr : r.head?.any p = false) (h : w' ++ r' = w ++ r) :
    (w' = w ∧ r' = r) ∨ (r'.head?.any p = true ∧ w'.length < w.length) := by
  induction w' generalizing w with
  | nil =>
    cases w with
    | nil => exact .inl ⟨rfl, h⟩
    | cons c w =>
      rw [List.nil_append] at h
      exact .inr ⟨by rw [h]; simpa using hw c (by simp), by simp⟩
  | cons c w' ih =>
    cases w with
    | nil =>
      rw [List.nil_append] at h
      rw [← h] at hr
      exact absurd (hw' c (by simp)) (by simpa using hr)
    | cons d w =>
      obtain ⟨rfl, htail⟩ := List.cons.inj h
      rcases ih (fun x hx => hw' x (by simp [hx])) (fun x hx => hw x (by simp [hx])) htail with
        ⟨rfl, hrest⟩ | ⟨hhead, hlt⟩
      · exact .inl ⟨rfl, hrest⟩
      · exact .inr ⟨hhead, by simpa using hlt⟩

/-- Two runs of one class neither of which can go on are the same run. -/
theorem run_unique {p : Char → Bool} {w r w' r' : List Char} (hw' : ∀ c ∈ w', p c = true)
    (hw : ∀ c ∈ w, p c = true) (hr' : r'.head?.any p = false) (hr : r.head?.any p = false)
    (h : w' ++ r' = w ++ r) : w' = w ∧ r' = r := by
  rcases run_cases hw' hw hr h with hsame | ⟨hhead, -⟩
  · exact hsame
  · rw [hr'] at hhead
    exact absurd hhead (by simp)

@[simp] theorem ahead_nil : ahead [] = [] := rfl

/-- Spacing in front of a text is passed over. -/
theorem ahead_cons_of_isSpacing {c : Char} (h : isSpacing c = true) (cs : List Char) :
    ahead (c :: cs) = ahead cs := by
  simp [ahead, h]

/-- Where no spacing stands there is nothing to pass over. -/
theorem ahead_of_head {cs : List Char} (h : cs.head?.any isSpacing = false) : ahead cs = cs := by
  cases cs with
  | nil => rfl
  | cons c cs =>
    have hc : isSpacing c = false := by simpa using h
    simp [ahead, hc]

/-- Behind spacing there is no more spacing. -/
theorem head_ahead (cs : List Char) : (ahead cs).head?.any isSpacing = false := by
  induction cs with
  | nil => rfl
  | cons c cs ih =>
    by_cases h : isSpacing c = true
    · rw [ahead_cons_of_isSpacing h]
      exact ih
    · rw [ahead_of_head (by simpa using h)]
      simpa using h

@[simp] theorem ahead_ahead (cs : List Char) : ahead (ahead cs) = ahead cs :=
  ahead_of_head (head_ahead cs)

/-- Passing over spacing leaves no longer text. -/
theorem length_ahead_le (cs : List Char) : (ahead cs).length ≤ cs.length :=
  (List.dropWhile_sublist _).length_le

/-! ## The first character of a word -/

/-- The first character of a symbol starts no word of another kind. -/
theorem symbol_head {t : Token} {w : List Char} (h : t.symbol? = some w) :
    ∃ c cs, w = c :: cs ∧ isDigit c = false ∧ isNameStart c = false ∧ c ≠ '"'
      ∧ isSpacing c = false := by
  cases t with
  | number _ | infinity _ | name _ _ | quoted _ => simp [Token.symbol?] at h
  | operator o =>
    obtain rfl := Option.some.inj h
    cases o <;> exact ⟨_, _, rfl, by decide, by decide, by decide, by decide⟩
  | _ =>
    obtain rfl := Option.some.inj h
    exact ⟨_, _, rfl, by decide, by decide, by decide, by decide⟩

/-- A character that a word for the token can start with. -/
def Token.Heads (c : Char) : Token → Prop
  | number _ => isDigit c = true
  | infinity .plus => c = '+'
  | infinity .minus => c = '-'
  | name _ _ => isNameStart c = true
  | quoted _ => c = '"'
  | t => ∃ cs, t.symbol? = some (c :: cs)

/-- A word starts with a character that can start its token. -/
theorem Spells.heads {w : List Char} {t : Token} (h : Spells w t) :
    ∃ c cs, w = c :: cs ∧ t.Heads c := by
  cases h with
  | symbol h =>
    obtain ⟨c, cs, rfl, -⟩ := symbol_head h
    refine ⟨c, cs, rfl, ?_⟩
    cases t with
    | number _ | infinity _ | name _ _ | quoted _ => simp [Token.symbol?] at h
    | _ => exact ⟨cs, h⟩
  | number hw hf hp =>
    obtain ⟨c, cs, rfl⟩ := List.exists_cons_of_ne_nil hw.1
    exact ⟨c, _, rfl, hw.2 c (by simp)⟩
  | infinity s h => cases s <;> exact ⟨_, _, rfl, rfl⟩
  | name h =>
    obtain ⟨c, cs, rfl, hc, -⟩ := h
    exact ⟨c, cs, rfl, hc⟩
  | qualified hc h =>
    obtain ⟨c, cs, rfl, hc, -⟩ := hc
    exact ⟨c, _, rfl, hc⟩
  | quoted h => exact ⟨_, _, rfl, rfl⟩

/-- Only a number starts with a digit. -/
theorem Token.Heads.eq_number {c : Char} {t : Token} (h : t.Heads c) (hc : isDigit c = true) :
    ∃ x, t = .number x := by
  cases t with
  | number x => exact ⟨x, rfl⟩
  | name _ _ => exact absurd (show isNameStart c = true from h) (by simp [isNameStart_of_isDigit hc])
  | infinity s => cases s <;> (obtain rfl : c = _ := h; exact absurd hc (by decide))
  | quoted _ =>
    obtain rfl : c = '"' := h
    exact absurd hc (by decide)
  | _ =>
    obtain ⟨cs, hs⟩ := h
    obtain ⟨_, _, he, hd, -⟩ := symbol_head hs
    obtain ⟨rfl, -⟩ := List.cons.inj he
    exact absurd hc (by simp [hd])

/-- Only a name starts with a letter or underscore. -/
theorem Token.Heads.eq_name {c : Char} {t : Token} (h : t.Heads c) (hc : isNameStart c = true) :
    ∃ k n, t = .name k n := by
  cases t with
  | number x => exact absurd hc (by simp [isNameStart_of_isDigit (show isDigit c = true from h)])
  | name k n => exact ⟨k, n, rfl⟩
  | infinity s => cases s <;> (obtain rfl : c = _ := h; exact absurd hc (by decide))
  | quoted _ =>
    obtain rfl : c = '"' := h
    exact absurd hc (by decide)
  | _ =>
    obtain ⟨cs, hs⟩ := h
    obtain ⟨_, _, he, -, hn, -⟩ := symbol_head hs
    obtain ⟨rfl, -⟩ := List.cons.inj he
    exact absurd hc (by simp [hn])

/-- Only a dimension value starts with a quote. -/
theorem Token.Heads.eq_quoted {t : Token} (h : t.Heads '"') : ∃ v, t = .quoted v := by
  cases t with
  | number x => exact absurd (show isDigit '"' = true from h) (by decide)
  | name k n => exact absurd (show isNameStart '"' = true from h) (by decide)
  | infinity s => cases s <;> exact absurd (show '"' = _ from h) (by decide)
  | quoted v => exact ⟨v, rfl⟩
  | _ =>
    obtain ⟨cs, hs⟩ := h
    obtain ⟨_, _, he, -, -, hq, -⟩ := symbol_head hs
    exact absurd (List.cons.inj he).1.symm hq

theorem not_isSpacing_of_isNameChar {c : Char} (h : isNameChar c = true) :
    isSpacing c = false := by
  cases hs : isSpacing c with
  | false => rfl
  | true =>
    simp only [isSpacing, Bool.or_eq_true, decide_eq_true_eq] at hs
    rcases hs with ((rfl | rfl) | rfl) | rfl <;> exact absurd h (by decide)

/-- No word starts with spacing. -/
theorem Token.Heads.not_isSpacing {c : Char} {t : Token} (h : t.Heads c) : isSpacing c = false := by
  cases t with
  | number _ => exact not_isSpacing_of_isNameChar (isNameChar_of_isDigit h)
  | name _ _ => exact not_isSpacing_of_isNameChar (isNameChar_of_isNameStart h)
  | infinity s => cases s <;> (obtain rfl : c = _ := h; decide)
  | quoted _ =>
    obtain rfl : c = '"' := h
    decide
  | _ =>
    obtain ⟨cs, hs⟩ := h
    obtain ⟨_, _, he, -, -, -, hsp⟩ := symbol_head hs
    obtain ⟨rfl, -⟩ := List.cons.inj he
    exact hsp

/-- A text starts with the first character of its token. -/
theorem StartsWith.heads {cs rest : List Char} {t : Token} (h : StartsWith cs t rest) :
    ∃ c ds, cs = c :: ds ∧ t.Heads c := by
  obtain ⟨w, hw, rfl, -⟩ := h
  obtain ⟨c, ds, rfl, hc⟩ := hw.heads
  exact ⟨c, ds ++ rest, rfl, hc⟩

/-- A token takes up some of the text. -/
theorem StartsWith.length_lt {cs rest : List Char} {t : Token} (h : StartsWith cs t rest) :
    rest.length < cs.length := by
  obtain ⟨w, hw, rfl, -⟩ := h
  obtain ⟨c, ds, rfl, -⟩ := hw.heads
  rw [List.length_append, List.length_cons]
  omega

end DerivedStats.Grammar
