import DerivedStats.Proofs.Grammar.Language
import DerivedStats.Proofs.Writing.Reading

/-!
# Reading what was written

A definition that was read and is written again is read as the same definition, if no sign in it
stands directly in front of a statistic whose first name is that of an infinity; and only then. That
a definition with such a sign is not read back is seen by counting: each word for an infinity comes
back as an infinite number, and there is one word too many.
-/

namespace DerivedStats

open Grammar

/-! ## Spans do not matter -/

namespace Expr

@[simp] theorem precedence_bare (e : Expr) : e.bare.precedence = e.precedence := by
  cases e <;> rfl

@[simp] theorem text_bare (e : Expr) : e.bare.text = e.text := by
  induction e using induction_parts with
  | literal | mention => rfl
  | signed s o e ih => rw [bare, text, text, ih, precedence_bare]
  | binary s l o r hl hr => rw [bare, text, text, hl, hr, precedence_bare, precedence_bare]
  | conditional s c y n hc hy hn => rw [bare, text, text, hc, hy, hn, precedence_bare]
  | call s a es ih | list s es ih =>
    rw [bare, text, text, texts_eq_map, texts_eq_map, baresOf_eq_map, List.map_map]
    rw [show es.map (text ∘ bare) = es.map text from List.map_congr_left ih]

@[simp] theorem mentionsInfinity_bare (e : Expr) : e.bare.mentionsInfinity = e.mentionsInfinity := by
  cases e <;> rfl

@[simp] theorem signsInfinity_bare (e : Expr) : e.bare.signsInfinity = e.signsInfinity := by
  induction e using induction_parts with
  | literal | mention => rfl
  | signed s o e ih => rw [bare, signsInfinity, signsInfinity, ih, mentionsInfinity_bare]
  | binary s l o r hl hr => rw [bare, signsInfinity, signsInfinity, hl, hr]
  | conditional s c y n hc hy hn => rw [bare, signsInfinity, signsInfinity, hc, hy, hn]
  | call s a es ih | list s es ih =>
    rw [bare, signsInfinity, signsInfinity, anySignsInfinity_eq_any, anySignsInfinity_eq_any,
      baresOf_eq_map, List.any_map]
    rw [Bool.eq_iff_iff, List.any_eq_true, List.any_eq_true]
    exact exists_congr fun e => and_congr_right fun he => by rw [Function.comp, ih e he]

end Expr

/-! ## Trees that were read -/

/-- What stands in an item stands in the list with separators. -/
theorem mem_intercalate {α : Type} {s xs : List α} {x : α} {ls : List (List α)} (hxs : xs ∈ ls)
    (hx : x ∈ xs) : x ∈ List.intercalate s ls := by
  induction ls with
  | nil => exact absurd hxs List.not_mem_nil
  | cons ys ls ih =>
    cases ls with
    | nil =>
      obtain rfl := List.mem_singleton.mp hxs
      simpa using hx
    | cons zs ls =>
      rw [List.intercalate_cons_cons]
      rcases List.mem_cons.mp hxs with rfl | hxs
      · simp [hx]
      · exact List.mem_append_right _ (ih hxs)

/-- The tokens of a text have words. -/
theorem Grammar.Lexes.spelled {cs rest : List Char} {ts : List Token} (h : Lexes cs ts rest) :
    ∀ t ∈ ts, ∃ w, Spells w t := by
  induction h with
  | done => simp
  | token hnext _ ih =>
    intro t ht
    rcases List.mem_cons.mp ht with rfl | ht
    · obtain ⟨w, hw, -⟩ := hnext.starts
      exact ⟨w, hw⟩
    · exact ih t ht

/-- What spells a name is one. -/
theorem isName_of_spells {w : List Char} {n : String} (h : Spells w (.name none n)) :
    IsName n.toList := by
  cases h with
  | symbol h => simp [Token.symbol?] at h
  | name h => rwa [String.toList_ofList]

theorem isName_of_spells_qualified {w : List Char} {k n : String}
    (h : Spells w (.name (some k) n)) : IsName k.toList ∧ IsName n.toList := by
  cases h with
  | symbol h => simp [Token.symbol?] at h
  | qualified hk hn => rw [String.toList_ofList, String.toList_ofList]; exact ⟨hk, hn⟩

theorem isValue_of_spells {w : List Char} {v : String} (h : Spells w (.quoted v)) :
    IsValue v.toList := by
  cases h with
  | symbol h => simp [Token.symbol?] at h
  | quoted h => rwa [String.toList_ofList]

/-- No word spells a negative number. -/
theorem isNegative_of_spells {w : List Char} {x : Float} (h : Spells w (.number x)) :
    Number.isNegative x = false := by
  cases h with
  | symbol h => simp [Token.symbol?] at h
  | number => exact (Number.toFloat_sign _).2

/-- A mention whose tokens have words is made of words. -/
theorem Mention.isSpelled_of_tokens {m : Mention} (h : ∀ t ∈ m.tokens, ∃ w, Spells w t) :
    m.IsSpelled := by
  obtain ⟨w, hw⟩ := h (.name m.category m.name) (by simp [Mention.tokens])
  refine ⟨fun c hc => ?_, ?_, fun d hd => ?_⟩
  · rw [hc] at hw
    exact (isName_of_spells_qualified hw).1
  · cases hc : m.category with
    | none => exact isName_of_spells (hc ▸ hw)
    | some c => exact (isName_of_spells_qualified (hc ▸ hw)).2
  · have hmem : ∀ t ∈ d.tokens, t ∈ m.tokens := by
      intro t ht
      have hne : m.dimensions ≠ [] := List.ne_nil_of_mem hd
      rw [Mention.tokens, if_neg hne]
      simp [mem_intercalate (List.mem_map_of_mem hd) ht]
    obtain ⟨u, hu⟩ := h (.name none d.key) (hmem _ (by simp [Dimension.tokens]))
    obtain ⟨v, hv⟩ := h (.quoted d.value) (hmem _ (by simp [Dimension.tokens]))
    exact ⟨isName_of_spells hu, isValue_of_spells hv⟩

/-- A tree that was read can be written, and no number in it is negative. -/
theorem Grammar.Derives.written {k : Nat} {ts : List Token} {e : Expr} (h : Derives k ts e)
    (hts : ∀ t ∈ ts, ∃ w, Spells w t) : e.Written False ∧ e.reading = e := by
  induction h with
  | weaker _ ih => exact ih hts
  | @conditional cs ys ns c y n _ _ _ hc hy hn =>
    have hc := hc fun t ht => hts t (by simp [ht])
    have hy := hy fun t ht => hts t (by simp [ht])
    have hn := hn fun t ht => hts t (by simp [ht])
    refine ⟨.conditional _ hc.1 hy.1 hn.1, ?_⟩
    rw [Expr.reading, hc.2, hy.2, hn.2]
  | binary o _ _ hl hr =>
    have hl := hl fun t ht => hts t (by simp [ht])
    have hr := hr fun t ht => hts t (by simp [ht])
    refine ⟨.binary _ o hl.1 hr.1, ?_⟩
    rw [Expr.reading, hl.2, hr.2]
  | signed s _ ih =>
    have ih := ih fun t ht => hts t (by simp [ht])
    refine ⟨.signed _ s ih.1, ?_⟩
    rw [Expr.reading, ih.2]
  | infinity s =>
    refine ⟨.literal _ _, ?_⟩
    rw [Expr.reading, Number.reading, if_neg]
    cases s <;> decide +kernel
  | number x =>
    refine ⟨.literal _ _, ?_⟩
    -- the words of numbers have no signs
    obtain ⟨w, hw⟩ := hts (.number x) (by simp)
    have hsign := isNegative_of_spells hw
    rw [Expr.reading, Number.reading, if_neg (by simp [hsign])]
  | nan =>
    refine ⟨.literal _ _, ?_⟩
    rw [Expr.reading, Number.reading, if_neg]
    decide +kernel
  | group _ ih => exact ih fun t ht => hts t (by simp [ht])
  | @call a arguments hne _ ih =>
    have ih : ∀ p ∈ arguments, p.2.Written False ∧ p.2.reading = p.2 := fun p hp =>
      ih p hp fun t ht => hts t (by simp [mem_intercalate (List.mem_map_of_mem hp) ht])
    refine ⟨.call _ a (by simpa using hne) ?_, ?_⟩
    · intro e he
      obtain ⟨p, hp, rfl⟩ := List.mem_map.mp he
      exact (ih p hp).1
    · rw [Expr.reading, Expr.readingsOf_eq_map, List.map_map]
      exact congrArg _ (List.map_congr_left fun p hp => (ih p hp).2)
  | mention m hnan =>
    exact ⟨.mention _ (Mention.isSpelled_of_tokens hts) hnan, rfl⟩

/-! ## Counting infinities -/

/-- The token is a word for an infinity. -/
def Grammar.Token.isInfinity : Token → Bool
  | infinity _ => true
  | _ => false

namespace Expr

mutual

/-- The number of infinite numbers in the tree. -/
def infinities : Expr → Nat
  | literal _ v => if v.isInf then 1 else 0
  | mention _ _ => 0
  | signed _ _ e => e.infinities
  | binary _ l _ r => l.infinities + r.infinities
  | conditional _ c y n => c.infinities + y.infinities + n.infinities
  | call _ _ es | list _ es => infinitiesOf es

/-- The number of infinite numbers in the trees. -/
def infinitiesOf : List Expr → Nat
  | [] => 0
  | e :: es => e.infinities + infinitiesOf es

end

theorem infinitiesOf_eq_sum (es : List Expr) : infinitiesOf es = (es.map infinities).sum := by
  induction es with
  | nil => simp [infinitiesOf]
  | cons e es ih => simp [infinitiesOf, ih]

end Expr

/-- The infinities of a list with commas are those of its items. -/
theorem countP_intercalate (ls : List (List Token)) :
    (List.intercalate [.comma] ls).countP Token.isInfinity
      = (ls.map (List.countP Token.isInfinity)).sum := by
  induction ls with
  | nil => rfl
  | cons l ls ih =>
    cases ls with
    | nil => simp
    | cons m ls =>
      rw [List.intercalate_cons_cons, List.countP_append, List.countP_append, ih]
      simp [Token.isInfinity]

theorem countP_mention (m : Mention) : m.tokens.countP Token.isInfinity = 0 := by
  have hdims : ((m.dimensions.map Dimension.tokens).map (List.countP Token.isInfinity)).sum = 0 := by
    rw [List.map_map]
    exact List.sum_eq_zero fun n hn => by
      obtain ⟨d, -, rfl⟩ := List.mem_map.mp hn
      rfl
  rw [Mention.tokens]
  split
  · rfl
  · simp only [List.countP_cons, List.countP_append, countP_intercalate, hdims]
    rfl

theorem isInfinity_ofSign (s : Sign) : (Token.ofSign s).isInfinity = false := by
  cases s <;> rfl

/-- Every word for an infinity becomes an infinite number. -/
theorem Grammar.Derives.countP_le {k : Nat} {ts : List Token} {e : Expr} (h : Derives k ts e) :
    ts.countP Token.isInfinity ≤ e.infinities := by
  induction h with
  | weaker _ ih => exact ih
  | conditional _ _ _ hc hy hn | binary o _ _ hl hr =>
    simp only [List.countP_append, List.countP_cons, Expr.infinities, Token.isInfinity]
    simp only [Bool.false_eq_true, if_false]
    omega
  | signed s _ ih =>
    rw [List.countP_cons, isInfinity_ofSign, Expr.infinities]
    exact ih
  | infinity s => cases s <;> decide +kernel
  | number x => exact Nat.zero_le _
  | nan => exact Nat.zero_le _
  | group _ ih =>
    simp only [List.countP_append, List.countP_cons, Token.isInfinity, List.countP_nil]
    simp only [Bool.false_eq_true, if_false]
    omega
  | @call a arguments _ _ ih =>
    have hsum : (arguments.map fun p => p.1.countP Token.isInfinity).sum
        ≤ (arguments.map fun p => p.2.infinities).sum := List.sum_le_sum ih
    simp only [List.countP_append, List.countP_cons, Token.isInfinity, List.countP_nil,
      countP_intercalate, List.map_map, Expr.infinities, Expr.infinitiesOf_eq_sum]
    simp only [Bool.false_eq_true, if_false]
    exact hsum
  | mention m => rw [countP_mention]; exact Nat.zero_le _

theorem countP_groupTokens (needed : Bool) (ts : List Token) :
    (groupTokens needed ts).countP Token.isInfinity = ts.countP Token.isInfinity := by
  cases needed with
  | false => rfl
  | true =>
    simp only [groupTokens, if_true, List.countP_append, List.countP_cons, Token.isInfinity,
      List.countP_nil]
    rfl

/-- A sign adds a word for an infinity if it makes one with the name behind it. -/
theorem countP_signTokens (s : Sign) (t : Token) (ts : List Token) :
    (signTokens s (t :: ts)).countP Token.isInfinity
      = (t :: ts).countP Token.isInfinity + if t.namesInfinity then 1 else 0 := by
  by_cases h : t.namesInfinity = true
  · rw [if_pos h]
    cases t with
    | name k n =>
      cases k with
      | none =>
        rw [signTokens, if_pos (show isInfinityName n = true from h), List.countP_cons,
          List.countP_cons]
        rfl
      | some k =>
        rw [signTokens, if_pos (show isInfinityName k = true from h), List.countP_cons,
          List.countP_cons, List.countP_cons, List.countP_cons]
        rfl
    | _ => exact absurd h Bool.false_ne_true
  · rw [if_neg h, signTokens_cons s ts (Bool.eq_false_iff.mpr h), List.countP_cons,
      isInfinity_ofSign]
    rfl

/-- A number is written with an infinity if it is infinite. -/
theorem countP_number (x : Float) :
    (Number.tokens x).countP Token.isInfinity = if x.isInf then 1 else 0 := by
  unfold Number.tokens
  by_cases hnan : x.isNaN = true
  · have hinf : x.isInf = false := by
      rw [Number.eq_nan hnan]
      decide +kernel
    rw [if_pos hnan, hinf]
    rfl
  · rw [if_neg hnan]
    by_cases hinf : x.isInf = true
    · rw [if_pos hinf, if_pos hinf]
      rfl
    · rw [if_neg hinf, if_neg hinf]
      split <;> rfl

theorem toNat_or_le (a b : Bool) : (a || b).toNat ≤ a.toNat + b.toNat := by
  cases a <;> cases b <;> decide

/-- The words for infinities in several trees are enough if they are in each of them. -/
theorem sum_infinities_le {es : List Expr}
    (h : ∀ e ∈ es, e.infinities + e.signsInfinity.toNat ≤ e.tokens.countP Token.isInfinity) :
    (es.map Expr.infinities).sum + (es.any Expr.signsInfinity).toNat
      ≤ (es.map fun e => e.tokens.countP Token.isInfinity).sum := by
  induction es with
  | nil => exact Nat.le_refl _
  | cons e es ih =>
    have he := h e (by simp)
    have hmore := ih fun f hf => h f (by simp [hf])
    have hor := toNat_or_le e.signsInfinity (es.any Expr.signsInfinity)
    simp only [List.map_cons, List.sum_cons, List.any_cons]
    omega

/-- The written form has a word for each infinite number, and one more if a sign in it makes one with
a name. -/
theorem Expr.Written.infinities_le {e : Expr} (h : e.Written False) :
    e.infinities + e.signsInfinity.toNat ≤ e.tokens.countP Token.isInfinity := by
  induction h with
  | literal s v =>
    rw [infinities, tokens, countP_number]
    exact Nat.le_refl _
  | mention s h => exact Nat.zero_le _
  | @signed s o e h ih =>
    have hor := toNat_or_le e.mentionsInfinity e.signsInfinity
    rw [infinities, signsInfinity, tokens]
    by_cases hmention : e.mentionsInfinity = true
    · cases h with
      | @mention t m hm hnan =>
        rw [show groupTokens _ (Expr.mention t m).tokens = m.tokens from rfl, Mention.tokens,
          countP_signTokens,
          if_pos (show (Token.name m.category m.name).namesInfinity = true from hmention)]
        rw [hmention]
        exact Nat.succ_le_succ (Nat.zero_le _)
      | _ => exact absurd hmention Bool.false_ne_true
    · rw [h.signTokens_eq o (Bool.eq_false_iff.mpr hmention), List.countP_cons, isInfinity_ofSign,
        countP_groupTokens]
      rw [Bool.eq_false_iff.mpr hmention] at hor ⊢
      simp only [Bool.false_eq_true, if_false, Bool.false_or] at hor ⊢
      exact ih
  | @binary s o l r _ _ hl hr =>
    have hor := toNat_or_le l.signsInfinity r.signsInfinity
    simp only [infinities, signsInfinity, tokens, List.countP_append, List.countP_cons,
      countP_groupTokens, Token.isInfinity]
    omega
  | @conditional s c y n _ _ _ hc hy hn =>
    have hor := toNat_or_le c.signsInfinity y.signsInfinity
    have hor' := toNat_or_le (c.signsInfinity || y.signsInfinity) n.signsInfinity
    simp only [infinities, signsInfinity, tokens, List.countP_append, List.countP_cons,
      countP_groupTokens, Token.isInfinity]
    omega
  | @call s a es _ _ ih =>
    have hsum := sum_infinities_le ih
    simp only [infinities, infinitiesOf_eq_sum, signsInfinity, anySignsInfinity_eq_any, tokens,
      tokensOf_eq_map, List.countP_cons, List.countP_append, countP_intercalate, List.map_map,
      Token.isInfinity, List.countP_nil]
    exact hsum
  | list hlists => exact hlists.elim

/-! ## Definitions -/

theorem Assignment.text_bare (a : Assignment) : a.bare.text = a.text := by
  rw [text, text, bare, Expr.text_bare]

/-- The text of a definition is made of the tokens of its parts. -/
theorem Assignment.lexes_text {lists : Prop} {a : Assignment} (htarget : a.target.IsSpelled)
    (hbody : a.body.Written lists) :
    Lexes a.text.toList (a.target.tokens ++ .equals :: a.body.tokens) [] := by
  have hwrites := htarget.writes_text.spaced (t := .equals) rfl hbody.writes_text
  have hlexes := hwrites.lexes (.inl rfl)
  rw [List.append_nil] at hlexes
  simpa [Assignment.text] using hlexes

/-- What is known of a definition that was read. -/
theorem Assignment.written_of_ofText {source : String} {a : Assignment}
    (h : Assignment.ofText source = .ok a) :
    a.target.IsSpelled ∧ a.body.bare.Written False ∧ a.body.bare.reading = a.body.bare := by
  obtain ⟨ts, hlexes, us, hderives, rfl⟩ := assignment_language.mp ⟨a, h, rfl⟩
  have hspelled := hlexes.spelled
  refine ⟨Mention.isSpelled_of_tokens fun t ht => hspelled t ?_,
    hderives.written fun t ht => hspelled t ?_⟩
  · exact List.mem_append_left _ ht
  · exact List.mem_append_right _ (List.mem_cons_of_mem _ ht)

/-- **A definition that was read and is written again is read as the same definition**, if and only
if no sign in it stands directly in front of a mention whose first name is that of an infinity. -/
theorem Assignment.ofText_text_iff {source : String} {a : Assignment}
    (h : Assignment.ofText source = .ok a) :
    (∃ b, Assignment.ofText a.text = .ok b ∧ b.bare = a.bare) ↔ a.body.signsInfinity = false := by
  obtain ⟨htarget, hbody, hreading⟩ := written_of_ofText h
  have hlexes := lexes_text (a := a.bare) htarget hbody
  rw [text_bare] at hlexes
  rw [assignment_language]
  constructor
  · -- the text has one list of tokens only, so if it is read back then these are what is derived
    rintro ⟨ts, hts, us, hderives, rfl⟩
    obtain rfl : us = a.body.bare.tokens := by
      have htokens := hts.unique hlexes
      exact (List.cons.inj (List.append_cancel_left htokens)).2
    have hderives : Derives conditionalPrecedence a.body.bare.tokens a.body.bare := hderives
    have hle := hderives.countP_le
    have hlt := hbody.infinities_le
    rw [Expr.signsInfinity_bare] at hlt
    cases hsigns : a.body.signsInfinity with
    | false => rfl
    | true =>
      rw [hsigns] at hlt
      exact absurd hlt (by simp; omega)
  · intro hsigns
    rw [← Expr.signsInfinity_bare] at hsigns
    have hderives := hbody.derives hsigns
    rw [hreading] at hderives
    have hone := a.body.bare.one_le_precedence
    exact ⟨_, hlexes, a.body.bare.tokens,
      hderives.weaken (show 1 ≤ _ by omega), rfl⟩

/-- The sign of `x = -(Inf)` makes a number of the name behind it. -/
theorem Assignment.ofText_text_signed_name : ∃ a, Assignment.ofText "x = -(Inf)" = .ok a
    ∧ ¬ ∃ b, Assignment.ofText a.text = .ok b ∧ b.bare = a.bare := by
  have hsigns : (Assignment.ofText "x = -(Inf)").toOption.any (·.body.signsInfinity) = true := by
    decide +kernel
  cases h : Assignment.ofText "x = -(Inf)" with
  | error r =>
    rw [h] at hsigns
    exact nomatch hsigns
  | ok a =>
    rw [h] at hsigns
    refine ⟨a, rfl, fun hback => ?_⟩
    have hno := (Assignment.ofText_text_iff h).mp hback
    exact absurd (hno.symm.trans hsigns) nofun

end DerivedStats
