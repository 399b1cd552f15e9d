import DerivedStats.Proofs.Grammar.Lexeme
import DerivedStats.Proofs.Grammar.Located

/-!
# Where lexemes stop

A lexeme that is read leads to a place further on in the text, and what it reads is a token with its
span (`Advances.located`). Spacing leads over a gap, and signs in front of an operand are tokens with
the spans that they are remembered with (`signsAt_located`).
-/

namespace DerivedStats.Grammar

open DerivedStats.Grammar.Parser

variable {α β : Type}

/-- The parser stops at a place further on in the text. -/
def Advances (p : Parser α) : Prop := ∀ c a c', p c = .ok (a, c') → ∃ w, Between c w c'

theorem Advances.pure (a : α) : Advances (pure a : Parser α) := by
  intro c a' c' h
  obtain ⟨rfl, rfl⟩ := Prod.mk.inj (pure_ok h)
  exact ⟨[], .nil _⟩

/-- A sequence stops behind its second part. -/
theorem Advances.bind {p : Parser α} {f : α → Parser β} (hp : Advances p)
    (hf : ∀ a, Advances (f a)) : Advances (p >>= f) := by
  intro c b c' h
  obtain ⟨a, m, ha, hb⟩ := bind_ok h
  obtain ⟨w, hw⟩ := hp _ _ _ ha
  obtain ⟨v, hv⟩ := hf a _ _ _ hb
  exact ⟨w ++ v, hw.append hv⟩

theorem Advances.orElse {p q : Parser α} (hp : Advances p) (hq : Advances q) :
    Advances (p <|> q) := by
  intro c a c' h
  rcases orElse_ok h with h | ⟨-, h⟩
  · exact hp _ _ _ h
  · exact hq _ _ _ h

/-- An optional phrase stops behind the phrase or in front of it. -/
theorem Advances.optional {p : Parser α} (hp : Advances p) : Advances (optional p) := by
  intro c o c' h
  rcases optional_ok h with ⟨a, rfl, ha⟩ | ⟨rfl, rfl, -⟩
  · exact hp _ _ _ ha
  · exact ⟨[], .nil _⟩

theorem advances_fail : Advances (fail : Parser α) := fun _ _ _ h => nomatch h

theorem advances_satisfy (p : Char → Bool) : Advances (satisfy p) := by
  intro c x c' h
  unfold satisfy at h
  split at h
  · next y rest hrest =>
    split at h
    · obtain ⟨rfl, rfl⟩ := Prod.mk.inj (Except.ok.inj h)
      exact ⟨[y], .past hrest⟩
    · exact nomatch h
  · exact nomatch h

theorem advances_run (p : Char → Bool) : Advances (run p) := by
  intro c w c' h
  obtain ⟨rfl, rfl⟩ := Prod.mk.inj (Except.ok.inj h)
  exact ⟨_, .past List.takeWhile_append_dropWhile.symm⟩

theorem advances_run1 (p : Char → Bool) : Advances (run1 p) :=
  (advances_satisfy p).bind fun _ => (advances_run p).bind fun _ => .pure _

theorem advances_character (x : Char) : Advances (character x) :=
  (advances_satisfy _).bind fun _ => .pure _

theorem advances_word (w : List Char) : Advances (word w) := by
  intro c u c' h
  have htext := word_ok h
  unfold word at h
  split at h
  · obtain ⟨-, rfl⟩ := Prod.mk.inj (Except.ok.inj h)
    exact ⟨w, .past htext⟩
  · exact nomatch h

/-! ## Lexemes -/

/-- A keyword leads on by its bytes. -/
theorem advances_keyword (w : String) : Advances (keyword w) := by
  intro c u c' h
  unfold keyword at h
  cases hw : word w.toList c with
  | error failure => simp [hw] at h
  | ok r =>
    rw [hw] at h
    simp only at h
    split at h
    · exact nomatch h
    · obtain ⟨-, rfl⟩ := Prod.mk.inj (Except.ok.inj h)
      exact advances_word _ _ _ _ hw

theorem advances_identifier : Advances identifier :=
  (advances_satisfy _).bind fun _ => (advances_run _).bind fun _ => .pure _

theorem advances_qualifiedName : Advances qualifiedName := by
  refine advances_identifier.bind fun first =>
    Advances.bind (((advances_character _).bind fun _ => advances_identifier).optional) fun o => ?_
  cases o with
  | none => exact .pure _
  | some name => exact .pure _

theorem advances_number : Advances number := by
  have hfraction : Advances fraction := (advances_character _).bind fun _ => advances_run1 _
  have hpower : Advances powerOfTen :=
    (advances_satisfy _).bind fun _ => (advances_satisfy _).optional.bind fun _ =>
      (advances_run1 _).bind fun _ => .pure _
  exact (advances_run1 _).bind fun _ => hfraction.optional.bind fun _ =>
    hpower.optional.bind fun _ => .pure _

theorem advances_signedInfinity : Advances signedInfinity := by
  have hword : ∀ (w : String) (x : Float), Advances (do keyword w; return x) :=
    fun w x => (advances_keyword w).bind fun _ => .pure x
  exact (hword _ _).orElse ((hword _ _).orElse ((hword _ _).orElse (hword _ _)))

theorem advances_aggregateName : Advances aggregateName := by
  have hword : ∀ a : Aggregate, Advances (do word a.name.toList; return a) :=
    fun a => (advances_word _).bind fun _ => .pure a
  exact (hword _).orElse ((hword _).orElse ((hword _).orElse ((hword _).orElse advances_fail)))

theorem advances_dimensionValue : Advances dimensionValue :=
  Advances.orElse ((advances_character _).bind fun _ => .pure _)
    ((advances_run1 _).bind fun _ => .pure _)

/-- An operator leads on by its bytes, or none is found and nothing is read. -/
theorem advances_operatorOf (os : List Operator) : Advances (operatorOf os) := by
  intro c r c' h
  unfold operatorOf at h
  split at h
  · obtain ⟨-, rfl⟩ := Prod.mk.inj (Except.ok.inj h)
    exact ⟨[], .nil _⟩
  · split at h
    · obtain ⟨-, rfl⟩ := Prod.mk.inj (Except.ok.inj h)
      exact ⟨[], .nil _⟩
    · next o ho =>
      obtain ⟨-, rfl⟩ := Prod.mk.inj (Except.ok.inj h)
      obtain ⟨hsymbol, -⟩ := List.find?_eq_some_iff_append.mp ho
      obtain ⟨rest, hrest⟩ := List.isPrefixOf_iff_prefix.mp hsymbol
      refine ⟨_, .past ?_⟩
      rw [← hrest, ← String.length_toList, List.drop_left]

/-- A lexeme that reads the next token reads it in its place. -/
theorem Advances.located {p : Parser α} {c c' : Cursor} {a : α} {t : Token} (hp : Advances p)
    (h : p c = .ok (a, c')) (hnext : Next c.rest t c'.rest) :
    Located c [(t, ⟨c.offset, c'.offset⟩)] c' := by
  obtain ⟨w, hw⟩ := hp _ _ _ h
  exact .single (.refl c) hw hnext

/-! ## Names and dimension values -/

/-- An identifier is a name that reaches as far as it can. -/
theorem identifier_between {c c' : Cursor} {n : String} (h : identifier c = .ok (n, c')) :
    ∃ w, IsName w ∧ n = String.ofList w ∧ Between c w c'
      ∧ c'.rest.head?.any isNameChar = false := by
  obtain ⟨w, hw, rfl, hrest, hend⟩ := identifier_ok h
  obtain ⟨v, hv⟩ := advances_identifier _ _ _ h
  obtain rfl : v = w := List.append_cancel_right (hv.text.symm.trans hrest)
  exact ⟨v, hw, rfl, hv, hend⟩

/-- A dimension value stands between the place where it is read and the next one. -/
theorem dimensionValue_between {c c' : Cursor} {s : String} (h : dimensionValue c = .ok (s, c')) :
    ∃ w, IsValue w ∧ s = String.ofList w ∧ Between c w c' := by
  obtain ⟨w, hw, rfl, hrest⟩ := dimensionValue_ok h
  obtain ⟨v, hv⟩ := advances_dimensionValue _ _ _ h
  obtain rfl : v = w := List.append_cancel_right (hv.text.symm.trans hrest)
  exact ⟨v, hw, rfl, hv⟩

/-! ## Spacing and single characters -/

/-- Spacing leads over a gap. -/
theorem spacing_gap {c c' : Cursor} {u : Unit} (h : spacing c = .ok (u, c')) : Gap c c' := by
  obtain ⟨w, m, hw, h⟩ := bind_ok h
  obtain ⟨-, rfl⟩ := Prod.mk.inj (pure_ok h)
  obtain ⟨v, hv⟩ := advances_run _ _ _ _ hw
  obtain ⟨htext, hall, -⟩ := run_ok hw
  obtain rfl : w = v := List.append_cancel_right (htext.symm.trans hv.text)
  exact ⟨w, hv, hall⟩

/-- A character stands between the place where it is read and the next one. -/
theorem character_between {x : Char} {c c' : Cursor} {u : Unit} (h : character x c = .ok (u, c')) :
    Between c [x] c' := by
  obtain ⟨w, hw⟩ := advances_character x _ _ _ h
  obtain rfl : w = [x] := List.append_cancel_right (hw.text.symm.trans (character_ok h))
  exact hw

theorem expectedCharacter_between {x : Char} {c c' : Cursor} {u : Unit}
    (h : expectedCharacter x c = .ok (u, c')) : Between c [x] c' :=
  character_between (mapFailure_ok h)

/-- A symbol of one character, behind spacing or not. -/
theorem Located.character {c m c' : Cursor} {t : Token} {x : Char} (gap : Gap c m)
    (h : Between m [x] c') (hx : t.symbol? = some [x]) (hplain : x ∉ ['+', '-', '=', '<', '>']) :
    Located c [(t, ⟨m.offset, c'.offset⟩)] c' := by
  refine .single gap h ?_
  rw [h.text]
  refine next_character hx (fun hs => absurd ?_ hplain) fun hs => absurd ?_ hplain
  · rcases hs with rfl | rfl <;> simp
  · rcases hs with rfl | rfl | rfl <;> simp

/-! ## Signs -/

/-- Spacing has one byte for each character. -/
theorem utf8Size_of_isSpacing {c : Char} (h : isSpacing c = true) : c.utf8Size = 1 := by
  simp only [isSpacing, Bool.or_eq_true, decide_eq_true_eq] at h
  rcases h with ((rfl | rfl) | rfl) | rfl <;> rfl

theorem utf8Size_of_sign {c : Char} {s : Sign} (h : sign? c = some s) : c.utf8Size = 1 := by
  unfold sign? at h
  split at h
  · next hc => rw [hc]; rfl
  · split at h
    · next hc => rw [hc]; rfl
    · exact nomatch h

/-- The tokens of signs, each with the byte that it is written with. -/
def signTokensAt (ss : List (Sign × Nat)) : List (Token × Span) :=
  ss.map fun s => (Token.ofSign s.1, ⟨s.2, s.2 + 1⟩)

/-- The signs that are read are tokens with the spans that are remembered. -/
theorem signsAt_located {offset : Nat} {cs : List Char} {ss : List (Sign × Nat)} {c' : Cursor}
    (h : signsAt offset cs = (ss, c')) : Located ⟨offset, cs⟩ (signTokensAt ss) c' := by
  induction cs generalizing offset ss with
  | nil =>
    obtain ⟨rfl, rfl⟩ := Prod.mk.inj h
    exact .done (.refl _)
  | cons c cs ih =>
    have hstep : c.utf8Size = 1 → Between ⟨offset, c :: cs⟩ [c] ⟨offset + 1, cs⟩ :=
      fun hsize => ⟨rfl, by rw [Text.byteLength_cons, hsize]; rfl⟩
    rw [signsAt] at h
    split at h
    · next hc =>
      exact (ih h).of_gap ⟨[c], hstep (utf8Size_of_isSpacing hc), by simpa using hc⟩
    · next hc =>
      split at h
      · obtain ⟨rfl, rfl⟩ := Prod.mk.inj h
        exact .done (.refl _)
      · next hinf =>
        split at h
        · obtain ⟨rfl, rfl⟩ := Prod.mk.inj h
          exact .done (.refl _)
        · next s hs =>
          obtain ⟨rfl, rfl⟩ := Prod.mk.inj h
          refine .token (.refl _) (hstep (utf8Size_of_sign hs)) ?_ (ih rfl)
          exact next_sign hs (by rwa [← startsInfinity_iff])

end DerivedStats.Grammar
