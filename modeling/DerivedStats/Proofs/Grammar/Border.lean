import DerivedStats.Proofs.Grammar.Located

/-!
# What comes behind a piece of text

A token is the longest one at its place, so what comes behind a piece of text may belong to its last
token. No token goes on with a space or with an opening quote (`Border`). So if a piece of text is made
of tokens where it stands, then it is made of the same tokens in front of a border
(`Located.recut`). The one token that looks at what follows is an infinity, and where the text goes on
with a name there is none: the name would reach over the end of the piece
(`Located.name_ends`).
-/

namespace DerivedStats.Grammar

/-- No token goes on with the text. -/
def Border (rest : List Char) : Prop := ∀ x, rest.head? = some x → x = ' ' ∨ x = '"'

theorem Border.nil : Border [] := fun _ h => nomatch h

theorem Border.space (rest : List Char) : Border (' ' :: rest) :=
  fun _ h => .inl (Option.some.inj h).symm

theorem Border.quote (rest : List Char) : Border ('"' :: rest) :=
  fun _ h => .inr (Option.some.inj h).symm

/-- No name goes on behind a border. -/
theorem Border.not_isNameChar {rest : List Char} (h : Border rest) :
    rest.head?.any isNameChar = false := by
  cases rest with
  | nil => rfl
  | cons x rest => rcases h x rfl with rfl | rfl <;> rfl

/-- The characters of names make no border. -/
theorem not_border_of_isNameChar {c : Char} (h : isNameChar c = true) : c ≠ ' ' ∧ c ≠ '"' := by
  constructor <;> (rintro rfl; exact absurd h (by decide))

theorem IsDigits.no_border {w : List Char} (h : IsDigits w) : ∀ c ∈ w, c ≠ ' ' ∧ c ≠ '"' :=
  fun c hc => not_border_of_isNameChar (isNameChar_of_isDigit (h.2 c hc))

theorem IsName.no_border {w : List Char} (h : IsName w) : ∀ c ∈ w, c ≠ ' ' ∧ c ≠ '"' :=
  fun c hc => not_border_of_isNameChar (h.all c hc)

theorem SpellsFraction.no_border {w ds : List Char} (h : SpellsFraction w ds) :
    ∀ c ∈ w, c ≠ ' ' ∧ c ≠ '"' := by
  cases h with
  | absent => simp
  | present hds => exact List.forall_mem_cons.mpr ⟨by decide, hds.no_border⟩

/-- There is no border within a power of ten. -/
theorem SpellsPower.no_border {w ds : List Char} {negative : Bool}
    (h : SpellsPower w negative ds) : ∀ c ∈ w, c ≠ ' ' ∧ c ≠ '"' := by
  cases h with
  | absent => simp
  | unsigned hm hds =>
    refine List.forall_mem_cons.mpr ⟨?_, hds.no_border⟩
    rcases hm with rfl | rfl <;> decide
  | signed hm hs hds =>
    refine List.forall_mem_cons.mpr ⟨?_, List.forall_mem_cons.mpr ⟨?_, hds.no_border⟩⟩
    · rcases hm with rfl | rfl <;> decide
    · rcases hs with rfl | rfl <;> decide

/-- No word but a dimension value has a border in it. -/
theorem Spells.no_border {w : List Char} {t : Token} (h : Spells w t) (ht : ∀ v, t ≠ .quoted v) :
    ∀ c ∈ w, c ≠ ' ' ∧ c ≠ '"' := by
  cases h with
  | symbol h =>
    cases t with
    | number _ | infinity _ | name _ _ | quoted _ => simp [Token.symbol?] at h
    | operator o =>
      obtain rfl := Option.some.inj h
      cases o <;> simp [Operator.symbol]
    | _ =>
      obtain rfl := Option.some.inj h
      simp
  | number hw hf hp =>
    exact List.forall_mem_append.mpr
      ⟨hw.no_border, List.forall_mem_append.mpr ⟨hf.no_border, hp.no_border⟩⟩
  | infinity s h => rcases h with rfl | rfl <;> cases s <;> simp [Sign.symbol]
  | name h => exact h.no_border
  | qualified hk h =>
    exact List.forall_mem_append.mpr
      ⟨hk.no_border, List.forall_mem_cons.mpr ⟨by decide, h.no_border⟩⟩
  | quoted => exact absurd rfl (ht _)

/-- A word in front of a border was there before the border replaced what followed. For an infinity no
name may have stood there. -/
theorem StartsWith.behind_border {w r r' rest : List Char} {t : Token}
    (h : StartsWith (w ++ r') t rest) (ht : ∀ v, t ≠ .quoted v) (hborder : Border r')
    (hinf : ∀ s, Spells w (.infinity s) → r.head?.any isNameChar = false) :
    ∃ y, rest = y ++ r' ∧ StartsWith (w ++ r) t (y ++ r) := by
  obtain ⟨v, hspells, htext, hend⟩ := h
  rcases List.append_eq_append_iff.mp htext with ⟨y, hv, hr'⟩ | ⟨y, hw, hrest⟩
  · cases y with
    | nil =>
      rw [List.append_nil] at hv
      refine ⟨[], hr'.symm, v, hspells, by rw [hv, List.nil_append], ?_⟩
      rintro s rfl
      exact hinf s (hv ▸ hspells)
    | cons a y =>
      -- the word would go on with the border
      have ha := hspells.no_border ht a (by rw [hv]; simp)
      rcases hborder a (by rw [hr']; rfl) with rfl | rfl
      · exact absurd rfl ha.1
      · exact absurd rfl ha.2
  · refine ⟨y, hrest, v, hspells, by rw [hw, List.append_assoc], ?_⟩
    rintro s rfl
    cases y with
    | nil =>
      rw [List.append_nil] at hw
      exact hinf s (hw ▸ hspells)
    | cons a y =>
      have hhead := hend s rfl
      rw [hrest] at hhead
      exact hhead

/-- What comes behind the word of a token and some more text can be replaced by a border. The more
text must not make an infinity of the word that was none before. -/
theorem Next.recut {u x r r' : List Char} {t : Token} (h : Next (u ++ (x ++ r)) t (x ++ r))
    (hborder : Border r')
    (hinf : ∀ s, Spells (u ++ x) (.infinity s) → r.head?.any isNameChar = false) :
    Next (u ++ (x ++ r')) t (x ++ r') := by
  by_cases hquoted : ∃ v, t = .quoted v
  · -- a dimension value ends with its own quote
    obtain ⟨n, rfl⟩ := hquoted
    obtain ⟨v, hv, rfl, htext⟩ := h.quoted
    obtain rfl : u = '"' :: (v ++ ['"']) := by
      have htext' : u ++ (x ++ r) = '"' :: (v ++ ['"']) ++ (x ++ r) := by
        rw [htext]
        simp
      exact List.append_cancel_right htext'
    have hnext : Next ('"' :: (v ++ '"' :: (x ++ r'))) (.quoted (String.ofList v)) (x ++ r') :=
      next_quoted hv
    simpa using hnext
  obtain ⟨⟨w, hspells, htext, hend⟩, hlongest⟩ := h
  obtain rfl : u = w := List.append_cancel_right htext
  refine ⟨⟨u, hspells, rfl, ?_⟩, ?_⟩
  · rintro s rfl
    cases x with
    | nil => exact hborder.not_isNameChar
    | cons a x => exact hend s rfl
  · intro t' rest' h'
    have hquoted' : ∀ v, t' ≠ .quoted v := by
      rintro v rfl
      obtain ⟨a, us, rfl, ha⟩ := hspells.heads
      obtain ⟨b, vs, hb, hquote⟩ := h'.heads
      obtain rfl : a = b := (List.cons.inj hb).1
      obtain rfl : a = '"' := hquote
      exact hquoted ha.eq_quoted
    rw [← List.append_assoc] at h'
    obtain ⟨y, rfl, hback⟩ := h'.behind_border hquoted' hborder hinf
    rw [List.append_assoc] at hback
    have hle := hlongest _ _ hback
    simp only [List.length_append] at hle ⊢
    omega

/-- An infinity is a sign and its name, in one of two spellings. -/
theorem infinity_word {w : List Char} {s : Sign} (h : Spells w (.infinity s)) :
    ∃ c v, w = c :: v ∧ (c = '+' ∨ c = '-') ∧ (v = "Inf".toList ∨ v = "INF".toList) := by
  cases h with
  | symbol h => simp [Token.symbol?] at h
  | infinity s hv =>
    cases s
    · exact ⟨'+', _, rfl, .inl rfl, hv⟩
    · exact ⟨'-', _, rfl, .inr rfl, hv⟩

/-- A token of more than a sign that starts like an infinity is one. -/
theorem Spells.eq_infinity {c : Char} {w : List Char} {t : Token} (h : Spells (c :: 'I' :: w) t)
    (hc : c = '+' ∨ c = '-') : ∃ s, t = .infinity s := by
  obtain ⟨a, us, hword, ha⟩ := h.heads
  obtain rfl : c = a := (List.cons.inj hword).1
  cases t with
  | infinity s => exact ⟨s, rfl⟩
  | number x =>
    have hdigit : isDigit c = true := ha
    rw [not_isDigit_sign hc] at hdigit
    exact nomatch hdigit
  | name k n =>
    have hstart : isNameStart c = true := ha
    rw [not_isNameStart_sign hc] at hstart
    exact nomatch hstart
  | quoted n =>
    obtain rfl : c = '"' := ha
    exact absurd hc (by decide)
  | operator o =>
    generalize hsymbol : c :: 'I' :: w = word at h
    cases h with
    | symbol h =>
      obtain rfl := Option.some.inj h
      cases o <;> exact absurd hsymbol (by simp [Operator.symbol])
  | _ =>
    generalize hsymbol : c :: 'I' :: w = word at h
    cases h with
    | symbol h =>
      obtain rfl := Option.some.inj h
      exact absurd hsymbol (by simp)

/-- What the word of a token leaves of a word for an infinity is a name. -/
theorem Spells.cut_infinity {u v : List Char} {s : Sign} {t : Token}
    (h : Spells (u ++ v) (.infinity s)) (hu : Spells u t) (hv : v ≠ []) : IsName v := by
  have hlen := infinity_length h
  have hpos := List.length_pos_iff.mpr hv
  rw [List.length_append] at hlen
  obtain ⟨c, w, hword, hc, hname⟩ := infinity_word h
  obtain ⟨a, us, rfl, -⟩ := hu.heads
  obtain ⟨rfl, htail⟩ := List.cons.inj hword
  cases us with
  | nil =>
    rw [show v = w from htail]
    exact isName_infinity hname
  | cons b us =>
    obtain rfl : b = 'I' := by
      rcases hname with rfl | rfl
      · exact (List.cons.inj htail).1
      · exact (List.cons.inj htail).1
    -- both words would be as long as one for an infinity is
    obtain ⟨s', rfl⟩ := hu.eq_infinity hc
    have hlen' := infinity_length hu
    omega

/-- Where a name token stands, its first name cannot go on. -/
theorem Next.name_run {cs rest : List Char} {k : Option String} {n : String}
    (h : Next cs (.name k n) rest) :
    ∃ w r, cs = w ++ r ∧ (∀ c ∈ w, isNameChar c = true) ∧ r.head?.any isNameChar = false
      ∧ rest.length ≤ r.length := by
  cases k with
  | none =>
    obtain ⟨w, hw, -, rfl, hend, -⟩ := h.name
    exact ⟨w, rest, rfl, hw.all, hend, le_refl _⟩
  | some c =>
    obtain ⟨w, w', hw, -, -, -, rfl, -⟩ := h.qualified
    refine ⟨w, '.' :: (w' ++ rest), rfl, hw.all, rfl, ?_⟩
    simp only [List.length_cons, List.length_append]
    omega

/-- Where a piece of text that tokens make up is a name, it is a whole name. -/
theorem Located.name_ends {c c' : Cursor} {ts : List (Token × Span)} {w : List Char}
    (h : Located c ts c') (hw : Between c w c') (hname : IsName w) :
    c'.rest.head?.any isNameChar = false := by
  obtain ⟨a, as, hcons, ha, -⟩ := id hname
  have hhead : c.rest.head? = some a := by rw [hw.text, hcons]; rfl
  have hspace : c.rest.head?.any isSpacing = false := by
    rw [hhead]
    exact not_isSpacing_of_isNameChar (isNameChar_of_isNameStart ha)
  cases h with
  | done gap =>
    obtain rfl := gap.eq_of_head hspace
    obtain rfl := hw.unique (.nil c)
    exact nomatch hcons
  | token gap word next more =>
    obtain rfl := gap.eq_of_head hspace
    obtain ⟨b, ds, htext, hb⟩ := next.starts.heads
    obtain rfl : a = b := by
      rw [htext] at hhead
      exact (Option.some.inj hhead).symm
    obtain ⟨k, n, rfl⟩ := hb.eq_name ha
    obtain ⟨v, r, hv, hall, hend, hlen⟩ := next.name_run
    rcases run_cases hname.all hall hend (hw.text.symm.trans hv) with ⟨-, hrest⟩ | ⟨-, hlt⟩
    · rw [hrest]
      exact hend
    · -- the token would reach over the end
      obtain ⟨w', hw'⟩ := more.between
      have h₁ := congrArg List.length (hw.text.symm.trans hv)
      have h₂ := congrArg List.length hw'.text
      simp only [List.length_append] at h₁ h₂
      omega

/-- **What comes behind a piece of text can be replaced by a border.** The piece, up to `m`, is made of
the same tokens then; some more text `x` between the piece and what is replaced is kept. If there is
none, the piece must be one that tokens make up to its end; else the text must not make the end of a
word for an infinity. -/
theorem Located.recut {c m c' : Cursor} {ts : List (Token × Span)} {w x r' : List Char}
    (h : Located c ts m) (hw : Between c w m) (hx : Between m x c') (hborder : Border r')
    (hinf : x = [] ∨ c'.rest.head?.any isNameChar = false
      ∨ ∀ y s, ¬ Spells (y ++ x) (.infinity s)) :
    Located ⟨c.offset, w ++ (x ++ r')⟩ ts ⟨m.offset, x ++ r'⟩ := by
  induction h generalizing w with
  | done gap =>
    obtain ⟨v, hv, hall⟩ := gap
    obtain rfl := hw.unique hv
    exact .done ⟨w, ⟨rfl, hw.offset⟩, hall⟩
  | @token c m₁ m₁' m t v ts gap word next more ih =>
    obtain ⟨u, hu, hall⟩ := gap
    obtain ⟨w₁, hw₁⟩ := more.between
    obtain rfl := hw.unique ((hu.append word).append hw₁)
    have hnext : Next (v ++ ((w₁ ++ x) ++ r')) t ((w₁ ++ x) ++ r') := by
      refine Next.recut (r := c'.rest) ?_ hborder ?_
      · have hnext := next
        rw [word.text, hw₁.text, hx.text] at hnext
        simpa using hnext
      · intro s hs
        rcases hinf with rfl | hinf | hinf
        · -- an infinity of this word and what is left of the piece ends where the piece does
          obtain rfl := hx.eq_of_nil
          rw [List.append_nil] at hs
          obtain ⟨v', hspells, htext, hend⟩ := next.starts
          obtain rfl : v = v' := List.append_cancel_right (word.text.symm.trans htext)
          by_cases hnil : w₁ = []
          · subst hnil
            obtain rfl := hw₁.eq_of_nil
            rw [List.append_nil] at hs
            exact hend s (hspells.unique hs)
          · exact more.name_ends hw₁ (hs.cut_infinity hspells hnil)
        · exact hinf
        · exact absurd (by simpa using hs) (hinf (v ++ w₁) s)
    have hgap : Gap ⟨c.offset, u ++ v ++ w₁ ++ (x ++ r')⟩ ⟨m₁.offset, v ++ (w₁ ++ (x ++ r'))⟩ :=
      ⟨u, ⟨by simp, hu.offset⟩, hall⟩
    have hword : Between ⟨m₁.offset, v ++ (w₁ ++ (x ++ r'))⟩ v ⟨m₁'.offset, w₁ ++ (x ++ r')⟩ :=
      ⟨rfl, word.offset⟩
    exact @Located.token _ ⟨m₁.offset, v ++ (w₁ ++ (x ++ r'))⟩ ⟨m₁'.offset, w₁ ++ (x ++ r')⟩ _ _ _ _
      hgap hword (by simpa using hnext) (ih hw₁ hx)

end DerivedStats.Grammar
