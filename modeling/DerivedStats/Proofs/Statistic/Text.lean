import DerivedStats.Formula.Basic
import DerivedStats.Proofs.Evaluation.Outcome
import DerivedStats.Proofs.Statistic.Order
import DerivedStats.Proofs.Text.Dictionary
import DerivedStats.Proofs.Writing.RoundTrip

/-!
# The text of a statistic

A text that mentions a statistic may leave its category out, have blanks between its tokens, and
name its dimensions in any order and more than once. The text that is written of a statistic has
none of this freedom: it is that of the mention that names everything once (`Statistic.toMention`).
If the parts of the statistic are words of the grammar then this text is read back as the statistic,
whatever the default category is (`Statistic.ofText_text`). What is read from a text is made of such
words, so on the statistics that can be read the written text tells one from another
(`Statistic.text_identifies`).
-/

namespace DerivedStats

open Grammar

namespace Statistic

/-- The mention that is written of a statistic: with its category, and each dimension once. -/
def toMention (s : Statistic) : Mention where
  category := some s.category
  name := s.name
  dimensions := s.dimensions.pairs.map fun p => ⟨p.1, p.2⟩

/-- A statistic with a category is written like the mention of it. -/
theorem text_toMention {s : Statistic} (h : s.category ≠ "") : s.toMention.text = s.text := by
  have hempty : s.category.isEmpty = false := by simpa using h
  rw [Mention.text, text, hempty, Dictionary.isEmpty]
  simp [toMention, Function.comp_def, Dimension.text]

/-- The default category is of no account for it. -/
theorem resolve_toMention (s : Statistic) (category : String) :
    s.toMention.resolve category = s := by
  have hdimensions : s.toMention.dimensionsByKey = s.dimensions := by
    rw [Mention.dimensionsByKey, toMention, List.map_map]
    exact (congrArg Dictionary.ofList (List.map_id _)).trans s.dimensions.ofList_pairs
  exact eq_of_parts rfl rfl hdimensions

/-- What a spelled mention stands for is made of words of the grammar. -/
theorem isSpelled_resolve {m : Mention} {category : String} (h : m.IsSpelled)
    (hcategory : IsName category.toList) : (m.resolve category).toMention.IsSpelled := by
  refine ⟨fun c hc => ?_, h.name, fun d hd => ?_⟩
  · obtain rfl : m.category.getD category = c := Option.some.inj hc
    cases hm : m.category with
    | none => exact hcategory
    | some k => exact h.category k hm
  · obtain ⟨p, hp, rfl⟩ := List.mem_map.mp hd
    obtain ⟨written, hwritten, rfl⟩ := List.mem_map.mp (Dictionary.mem_of_mem_ofList hp)
    exact h.dimensions written hwritten

/-- A text is read as a statistic if it is read as a mention that stands for the statistic. -/
theorem ofText_ok {t category : String} {s : Statistic} :
    Statistic.ofText t category = .ok s ↔
      ∃ m span, Mention.ofText t = .ok (m, span) ∧ m.resolve category = s := by
  unfold Statistic.ofText
  cases h : Mention.ofText t with
  | error report => simp [bind, Except.bind]
  | ok r => simp [bind, Except.bind, pure, Except.pure, Prod.ext_iff]

end Statistic

/-- A mention that is read is made of words of the grammar. -/
theorem Mention.isSpelled_of_ofText {t : String} {m : Mention} {span : Span}
    (h : Mention.ofText t = .ok (m, span)) : m.IsSpelled := by
  obtain ⟨-, c, hc⟩ := readText_ok_iff.mp h
  obtain ⟨ts, hts, hend, htokens, -⟩ := soleMention_ok hc
  have hlexes : Lexes t.toList m.tokens [] := hend ▸ htokens ▸ hts.lexes
  exact isSpelled_of_tokens hlexes.spelled

/-- A mention that is made of words of the grammar is read back from its text. -/
theorem Mention.ofText_text {m : Mention} (h : m.IsSpelled) :
    ∃ span, Mention.ofText m.text = .ok (m, span) := by
  have hlexes : Lexes m.text.toList m.tokens [] := by
    have hwritten := h.writes_text.lexes (.inl rfl)
    rwa [List.append_nil] at hwritten
  obtain ⟨⟨m', span⟩, offset, hok, rfl⟩ := soleMention_complete hlexes 0
  exact ⟨span, readText_ok_iff.mpr ⟨firstStray?_of_lexes hlexes, _, hok⟩⟩

namespace Statistic

/-- What is read from a text is made of words of the grammar. -/
theorem isSpelled_of_ofText {t category : String} {s : Statistic}
    (hcategory : IsName category.toList) (h : Statistic.ofText t category = .ok s) : s.toMention.IsSpelled := by
  obtain ⟨m, span, hm, rfl⟩ := ofText_ok.mp h
  exact isSpelled_resolve (Mention.isSpelled_of_ofText hm) hcategory

/-- **A statistic is read back from its text**, whatever the default category is. -/
theorem ofText_text {s : Statistic} (h : s.toMention.IsSpelled) (category : String) :
    Statistic.ofText s.text category = .ok s := by
  have hcategory : s.category ≠ "" := by
    intro hempty
    obtain ⟨c, cs, hname, -⟩ := h.category s.category rfl
    simp [hempty] at hname
  obtain ⟨span, hread⟩ := Mention.ofText_text h
  rw [text_toMention hcategory] at hread
  exact ofText_ok.mpr ⟨_, span, hread, resolve_toMention s category⟩

/-- **The written text identifies a statistic that was read.** It is read back as the statistic
under every default category, and two statistics that were read are the same if and only if their
texts are. -/
theorem text_identifies {t category : String} {s : Statistic} (hcategory : IsName category.toList)
    (h : Statistic.ofText t category = .ok s) :
    (∀ other, Statistic.ofText s.text other = .ok s)
    ∧ ∀ t' s', Statistic.ofText t' category = .ok s' → (s = s' ↔ s.text = s'.text) := by
  have hback := ofText_text (isSpelled_of_ofText hcategory h)
  refine ⟨hback, fun t' s' h' => ⟨congrArg text, fun htext => ?_⟩⟩
  have hback' := ofText_text (isSpelled_of_ofText hcategory h') category
  rw [← htext] at hback'
  exact Except.ok.inj ((hback category).symm.trans hback')

/-- Dimensions in another order, one of them given twice, and the category spelled out: the text is
the same, and so is the statistic. -/
theorem text_identifies_rearranged :
    ∃ s s', Statistic.ofText " w \x7b b:\"*\", a : \"x-1.2\" ,b:\"2\"\x7d" "k" = .ok s
      ∧ Statistic.ofText "k.w\x7ba:\"x-1.2\",b:\"2\"\x7d " "k" = .ok s'
      ∧ s.text = "k.w\x7ba:\"x-1.2\",b:\"2\"\x7d"
      ∧ (∀ other, Statistic.ofText s.text other = .ok s) ∧ s = s' := by
  have hname : IsName "k".toList := ⟨'k', [], rfl, rfl, by simp⟩
  have hread :
      (Statistic.ofText " w \x7b b:\"*\", a : \"x-1.2\" ,b:\"2\"\x7d" "k").toOption.map text
      = some "k.w\x7ba:\"x-1.2\",b:\"2\"\x7d" := by
    decide +kernel
  have hread' :
      (Statistic.ofText "k.w\x7ba:\"x-1.2\",b:\"2\"\x7d " "k").toOption.map text
      = some "k.w\x7ba:\"x-1.2\",b:\"2\"\x7d" := by
    decide +kernel
  obtain ⟨s, hs, htext⟩ := exists_ok_of_toOption hread
  obtain ⟨s', hs', htext'⟩ := exists_ok_of_toOption hread'
  obtain ⟨hback, hsame⟩ := text_identifies hname hs
  exact ⟨s, s', hs, hs', htext, hback, (hsame _ _ hs').mpr (htext.trans htext'.symm)⟩

/-- Statistics that were read compare as equal only if they are: a word has no points. -/
theorem order_eq_iff_of_ofText {t t' category category' : String} {s s' : Statistic}
    (hcategory : IsName category.toList) (hcategory' : IsName category'.toList)
    (h : Statistic.ofText t category = .ok s) (h' : Statistic.ofText t' category' = .ok s') :
    order s s' = .eq ↔ s = s' := by
  have hpoint : ∀ {w : List Char}, IsName w → '.' ∉ w := fun hw hmem =>
    absurd (hw.all '.' hmem) (by decide)
  exact order_eq_iff_eq (hpoint ((isSpelled_of_ofText hcategory h).category _ rfl))
    (hpoint ((isSpelled_of_ofText hcategory' h').category _ rfl))

end Statistic

end DerivedStats
