import DerivedStats.Proofs.Grammar.Prefix
import Mathlib.Data.Set.List

/-!
# The grammar reads no further than the text makes sense

Where a parser of the grammar fails, the text up to there can be completed to one of its phrases
(`Viable`). The completion is short: a name where an expression is wanted, what is missing of a
statistic, and the symbols that close what is open. One lemma for each parser, in the order of the
grammar; each one follows from how its parts fail and from what its parts read.

Main results: `complete_expression_viable`, `complete_arguments_viable`, `soleMention_viable`,
`assignment_viable`.
-/

namespace DerivedStats.Grammar

open DerivedStats.Grammar.Parser

variable {α : Type} {L : List Token → Prop}

/-! ## What is read before -/

/-- A character that is a token of its own is read as this token. -/
theorem character_sound {x : Char} {t : Token} (hx : t.symbol? = some [x])
    (hplain : x ∉ ['+', '-', '=', '<', '>']) :
    Sound (character x) fun ts _ => ts.map (·.1) = [t] :=
  fun c _ _ hok => ⟨_, .located (.character (.refl c) (character_between hok) hx hplain), rfl⟩

/-- Looking at what remains reads nothing. -/
theorem remaining_sound : Sound remaining fun ts _ => ts = [] := by
  intro c n c' hok
  obtain ⟨-, rfl⟩ := Prod.mk.inj (Except.ok.inj hok)
  exact ⟨[], .located (.done (.refl _)), rfl⟩

/-- Tokens that start with another one do not start with a point. -/
theorem head_ne_point_of_map {ts : List (Token × Span)} {t : Token} {us : List Token}
    (h : ts.map (·.1) = t :: us) (ht : t ≠ .point) : (ts.map (·.1)).head? ≠ some .point := by
  rw [h]
  exact fun heq => ht (Option.some.inj heq)

/-! ## Lists with commas -/

/-- Phrases with commas between them. -/
def Row (L : List Token → Prop) (ts : List Token) : Prop :=
  ∃ ls, ls ≠ [] ∧ (∀ l ∈ ls, L l) ∧ ts = List.intercalate [.comma] ls

/-- Phrases with a comma in front of each. -/
def RowTail (L : List Token → Prop) (ts : List Token) : Prop :=
  ∃ ls : List (List Token), (∀ l ∈ ls, L l) ∧ ts = ls.flatMap ([.comma] ++ ·)

/-- One more phrase in front of those behind commas. -/
theorem RowTail.cons {l ts : List Token} (hl : L l) (h : RowTail L ts) :
    RowTail L (.comma :: (l ++ ts)) := by
  obtain ⟨ls, hls, rfl⟩ := h
  exact ⟨l :: ls, List.forall_mem_cons.mpr ⟨hl, hls⟩, by simp⟩

/-- A phrase in front of those behind commas makes a row. -/
theorem RowTail.row {l ts : List Token} (hl : L l) (h : RowTail L ts) : Row L (l ++ ts) := by
  obtain ⟨ls, hls, rfl⟩ := h
  exact ⟨l :: ls, by simp, List.forall_mem_cons.mpr ⟨hl, hls⟩, (intercalate_cons _ _ _).symm⟩

/-- A row does not start with a point if its phrases do not. -/
theorem Row.head_ne_point {ts : List Token} (hL : ∀ l, L l → l.head? ≠ some .point)
    (h : Row L ts) : ts.head? ≠ some .point := by
  obtain ⟨ls, hne, hls, rfl⟩ := h
  obtain ⟨l, ls, rfl⟩ := List.exists_cons_of_ne_nil hne
  have hl := hL l (hls l (by simp))
  rw [intercalate_cons]
  cases l with
  | nil => cases ls <;> simp
  | cons t l => exact hl

/-- The items of a row, as the words of some values. -/
theorem Row.values {f : α → List Token} {ts : List Token} (h : Row (fun l => ∃ a, f a = l) ts) :
    ∃ as : List α, as ≠ [] ∧ ts = List.intercalate [.comma] (as.map f) := by
  obtain ⟨ls, hne, hls, rfl⟩ := h
  obtain ⟨as, rfl⟩ : ∃ as : List α, as.map f = ls := by
    have hrange : ls ∈ Set.range (List.map f) := by
      rw [Set.range_list_map]
      exact hls
    exact hrange
  exact ⟨as, by simpa using hne, rfl⟩

/-- What is read with commas is a row of what is read in between. -/
theorem commaSeparated_row {item : Parser α} (h : Sound item fun ts _ => L (ts.map (·.1))) :
    Sound (commaSeparated item) fun ts _ => Row L (ts.map (·.1)) := by
  intro c as c' hok
  obtain ⟨ts, hts, us, a, parts, hu, hparts, -, rfl⟩ := commaSeparated_sound h c as c' hok
  refine ⟨_, hts, ?_⟩
  show Row L ((us ++ row .comma parts).map (·.1))
  rw [List.map_append, map_row_comma]
  refine RowTail.row hu ⟨parts.map fun p => p.tokens.map (·.1), ?_, rfl⟩
  intro l hl
  obtain ⟨p, hp, rfl⟩ := List.mem_map.mp hl
  exact hparts p hp

/-- Wherever reading on behind commas fails, the row can be completed. -/
theorem furtherItems_viable {item : Parser α} (hs : Sound item fun ts _ => L (ts.map (·.1)))
    (hf : Viable item L) (budget : Nat) : Viable (furtherItems item budget) (RowTail L) := by
  induction budget with
  | zero => exact (total_pure _).viable
  | succ budget ih =>
    refine Viable.bind ?_ (commaItem_sound hs).optional ?_ fun o => ?_
    · have hcomma := character_sound (t := .comma) (x := ',') rfl (by decide)
      refine Viable.optional (Viable.behind_spacing (Viable.bind ?_ hcomma ?_ fun _ => ?_))
      · exact (local_character _).viable [] ⟨[], by simp, rfl⟩ (by simp)
      · exact fun ts _ hts => head_ne_point_of_map hts (by simp)
      · refine hf.mono fun l hl ts hts => ?_
        rw [hts]
        exact ⟨[l], by simpa using hl, by simp⟩
    · intro ts o hts
      cases o with
      | none =>
        rw [show ts = [] from hts]
        simp
      | some a =>
        obtain ⟨s, us, rfl, -⟩ := hts
        simp
    · cases o with
      | none => exact (total_pure _).viable
      | some a =>
        refine Viable.bind_total (ih.mono fun ts htail us hus => ?_) fun _ => total_pure _
        obtain ⟨s, vs, rfl, hvs⟩ := hus
        exact htail.cons hvs

/-- Wherever reading a row fails, it can be completed. -/
theorem commaSeparated_viable {item : Parser α} (hs : Sound item fun ts _ => L (ts.map (·.1)))
    (hf : Viable item L) (hpoint : ∀ ts, L ts → ts.head? ≠ some .point) :
    Viable (commaSeparated item) (Row L) := by
  refine Viable.bind ?_ hs ?_ fun _ => ?_
  · exact hf.mono fun l hl => ⟨[l], by simp, by simpa using hl, by simp⟩
  · exact fun ts _ hts => hpoint _ hts
  refine Viable.bind total_remaining.viable remaining_sound ?_ fun budget => ?_
  · rintro ts _ rfl
    simp
  refine Viable.bind_total ((furtherItems_viable hs hf budget).mono ?_) fun _ => total_pure _
  rintro ts htail _ rfl us hus
  exact htail.row hus

/-! ## Mentions -/

/-- A name stays one if something else comes behind it, also in front of a point. -/
theorem name_stuck {c m c' : Cursor} {w : List Char} (hw : IsName w) (word : Between c w m)
    (hend : m.rest.head?.any isNameChar = false) (gap : Gap m c') :
    Stuck c [.name none (String.ofList w)] c' := by
  by_cases hpoint : m.rest.head? = some '.'
  · obtain rfl := gap.eq_of_head (by rw [hpoint]; rfl)
    exact .behind (.done (.refl c)) word (.name hw) (.inl hend)
  · have hnext : Next c.rest (.name none (String.ofList w)) m.rest := by
      rw [word.text]
      exact next_name hw hend fun d ds hd => absurd (by rw [hd]; rfl) hpoint
    exact .between ((Located.single (.refl c) word hnext).to_gap gap)

/-- The tokens of some dimension. -/
def IsDimension (ts : List Token) : Prop := ∃ d : Dimension, d.tokens = ts

/-- Wherever reading a dimension fails, it can be completed. -/
theorem dimension_viable : Viable dimension IsDimension := by
  refine Viable.mapFailure ?_ fun _ => rfl
  intro c f h
  have hcolon : (Token.colon).IsSpelled := .symbol rfl
  rcases bind_error h with h | ⟨key, m₁, hkey, h⟩
  · rw [local_identifier.expecting c f h]
    exact .here c [.name none "a", .colon, .quoted "*"] ⟨⟨"a", "*"⟩, rfl⟩
      (by simp [isSpelled_name, isSpelled_quoted, hcolon])
  obtain ⟨w, hw, rfl, hword, hend⟩ := identifier_between (mapFailure_ok hkey)
  obtain ⟨m₂, hgap, h⟩ := bind_spacing_error h
  rcases bind_error h with h | ⟨_, m₃, hx, h⟩
  · -- without the colon the key may stand in front of a point, as part of a longer name
    rw [local_expectedCharacter ':' m₂ f h]
    exact ⟨_, [.colon, .quoted "*"], name_stuck hw hword hend hgap, by simp,
      ⟨⟨String.ofList w, "*"⟩, rfl⟩, by simp [isSpelled_quoted, hcolon]⟩
  have hname : Located c _ m₃ :=
    .name_character (t := .colon) hw hword hgap (expectedCharacter_between hx) rfl (.inl rfl)
  obtain ⟨m₄, hgap', h⟩ := bind_spacing_error h
  have hlocated := hname.to_gap hgap'
  rcases bind_error h with h | ⟨_, m₅, hquote, h⟩
  · rw [local_expectedCharacter '"' m₄ f h]
    exact ⟨_, [.quoted "*"], .between hlocated, by simp, ⟨⟨String.ofList w, "*"⟩, rfl⟩,
      by simp [isSpelled_quoted]⟩
  have hquote := expectedCharacter_between hquote
  rcases bind_error h with h | ⟨value, m₆, hvalue, h⟩
  · -- any value will do between the quotes
    rw [local_dimensionValue.expecting m₅ f h]
    exact ⟨_, [], .within ['*'] hlocated hquote (.inl rfl), by simp,
      ⟨⟨String.ofList w, "*"⟩, rfl⟩, by simp⟩
  obtain ⟨v, hv, rfl, hword'⟩ := dimensionValue_between (mapFailure_ok hvalue)
  rcases bind_error h with h | ⟨_, m₇, -, h⟩
  · rw [local_expectedCharacter '"' m₆ f h]
    refine ⟨_, [], .within [] hlocated (hquote.append hword') ?_, by simp,
      ⟨⟨String.ofList w, String.ofList v⟩, by simp [Dimension.tokens]⟩, by simp⟩
    rw [List.append_nil]
    exact hv
  · exact absurd h (total_pure _ m₇ f)

theorem IsDimension.head_ne_point {ts : List Token} (h : IsDimension ts) :
    ts.head? ≠ some .point := by
  obtain ⟨d, rfl⟩ := h
  simp [Dimension.tokens]

/-- Dimensions between braces. -/
def Clause (ts : List Token) : Prop :=
  ∃ ds : List Dimension, ds ≠ []
    ∧ ts = .openBrace :: (List.intercalate [.comma] (ds.map Dimension.tokens) ++ [.closeBrace])

/-- A row of dimensions between braces is a clause. -/
theorem Clause.of_row {ts : List Token} (h : Row IsDimension ts) :
    Clause (.openBrace :: (ts ++ [.closeBrace])) := by
  obtain ⟨ds, hne, rfl⟩ := Row.values (f := Dimension.tokens) h
  exact ⟨ds, hne, rfl⟩

/-- Wherever reading a clause of dimensions fails, it can be completed. -/
theorem dimensionClause_viable : Viable dimensionClause Clause := by
  have hitem : Sound (do spacing; dimension) fun ts _ => IsDimension (ts.map (·.1)) := by
    intro c d c' hok
    obtain ⟨_, m, hspace, hok⟩ := bind_ok hok
    obtain ⟨ts, hts, hd⟩ := dimension_sound _ _ _ hok
    exact ⟨ts, .behind (.done (spacing_gap hspace)) hts, d, hd.symm⟩
  have hopen : (Token.openBrace).IsSpelled := .symbol rfl
  have hcolon : (Token.colon).IsSpelled := .symbol rfl
  have hclose : (Token.closeBrace).IsSpelled := .symbol rfl
  refine Viable.bind ?_ (character_sound (t := .openBrace) rfl (by decide)) ?_ fun _ => ?_
  -- nothing of the clause is there, then a dimension breaks off, then the closing brace is missing
  · refine (local_character _).viable
      [.openBrace, .name none "a", .colon, .quoted "*", .closeBrace] ?_ ?_
    · exact ⟨[⟨"a", "*"⟩], by simp, rfl⟩
    · simp [isSpelled_name, isSpelled_quoted, hopen, hcolon, hclose]
  · exact fun ts _ hts => head_ne_point_of_map hts (by simp)
  refine Viable.bind ?_ ((commaSeparated_row hitem).mapFailure) ?_ fun ds => ?_
  · refine Viable.mapFailure ?_ fun _ => rfl
    refine (commaSeparated_viable hitem dimension_viable.behind_spacing
      fun ts hts => hts.head_ne_point).longer [.closeBrace] ?_ (by simp [hclose])
    intro us hus ts hts
    rw [hts]
    exact Clause.of_row hus
  · exact fun ts ds hts => hts.head_ne_point fun _ hl => hl.head_ne_point
  · refine Viable.bind_total (Viable.mapFailure ?_ fun _ => rfl) fun _ => total_pure _
    refine ((local_expectedCharacter _).viable [.closeBrace] ?_
      (by simp [hclose])).behind_spacing
    intro ts hts us hus
    rw [hus]
    exact Clause.of_row hts

/-- Where a statistic fails, one can be completed. Unless any one will do, it has the name that stands
there. -/
theorem mention_error {c : Cursor} {f : Failure} (h : mention c = .error f) :
    ∃ m : Mention, Completes (· = m.tokens) c f.place
      ∧ (m.firstName ≠ "NaN" ∨ ∃ rest, Next c.rest (.name m.category m.name) rest) := by
  obtain ⟨f', h', rfl⟩ := mapFailure_error h
  rcases bind_error h' with h' | ⟨_, _, hstart, h'⟩
  · exact absurd h' (total_offset c f')
  obtain ⟨rfl, rfl⟩ := Prod.mk.inj (Except.ok.inj hstart)
  rcases bind_error h' with h' | ⟨⟨k, n⟩, mid, hname, h'⟩
  · refine ⟨⟨none, "a", []⟩, ?_, .inl (by decide)⟩
    show Completes _ _ f'.place
    rw [local_qualifiedName _ f' h']
    exact .here _ [.name none "a"] rfl (by simp [isSpelled_name])
  have hnext := qualifiedName_ok hname
  have hlocated := advances_qualifiedName.located hname hnext
  rcases bind_error h' with h' | ⟨o, m₁, -, h'⟩
  · obtain ⟨ts, us, hstuck, hpoint, ⟨ds, hne, hds⟩, hus⟩ :=
      dimensionClause_viable.behind_spacing.optional mid f' h'
    refine ⟨⟨k, n, ds⟩, .behind (.located hlocated) (by simp) ?_, .inr ⟨_, hnext⟩⟩
    refine ⟨ts, us, hstuck, hpoint, ?_, hus⟩
    simp [Mention.tokens, hne, hds]
  · exact absurd h' ((total_offset.bind fun _ => total_pure _) m₁ f')

/-- The tokens of some mention. -/
def IsMention (ts : List Token) : Prop := ∃ m : Mention, ts = m.tokens

/-- Wherever reading a mention fails, it can be completed. -/
theorem mention_viable : Viable mention IsMention := by
  intro c f h
  obtain ⟨m, hm, -⟩ := mention_error h
  exact hm.mono fun ts hts => ⟨m, hts⟩

/-- What is read as a mention has the tokens of one. -/
theorem mention_sound : Sound mention fun ts _ => IsMention (ts.map (·.1)) := by
  rintro c ⟨m, span⟩ c' hok
  obtain ⟨ts, hts, htokens, -⟩ := mention_ok hok
  exact ⟨ts, .located hts, m, htokens⟩

theorem IsMention.head_ne_point {ts : List Token} (h : IsMention ts) : ts.head? ≠ some .point := by
  obtain ⟨m, rfl⟩ := h
  simp [Mention.tokens]

/-! ## Operands -/

/-- The tokens form an expression that binds at least as strongly as the level says. -/
def Phrase (k : Nat) (ts : List Token) : Prop := ∃ e, Derives k ts e

/-- A phrase of a level is one of the lower levels. -/
theorem Phrase.weaken {j k : Nat} {ts : List Token} (h : Phrase k ts) (hle : j ≤ k) :
    Phrase j ts := by
  obtain ⟨e, he⟩ := h
  exact ⟨e, he.weaken hle⟩

/-- An expression does not start with a point. -/
theorem Phrase.head_ne_point {k : Nat} {ts : List Token} (h : Phrase k ts) :
    ts.head? ≠ some .point := by
  obtain ⟨e, he⟩ := h
  obtain ⟨t, us, rfl, ht⟩ := he.head
  intro hpoint
  obtain rfl := Option.some.inj hpoint
  exact absurd ht (by decide)

/-- A name is an expression of its own. -/
theorem phrase_name : Phrase 9 [.name none "a"] :=
  ⟨_, .mention ⟨none, "a", []⟩ (by decide)⟩

/-- Tokens on which a tree is placed form an expression. -/
theorem Placed.phrase {k : Nat} {ts : List (Token × Span)} {e : Expr} (h : Placed k ts e) :
    Phrase k (ts.map (·.1)) :=
  ⟨_, h.derives⟩

theorem Placed.head_ne_point {k : Nat} {ts : List (Token × Span)} {e : Expr} (h : Placed k ts e) :
    (ts.map (·.1)).head? ≠ some .point :=
  h.phrase.head_ne_point

/-- An expression in parentheses is an operand. -/
theorem Phrase.group {ts : List Token} (h : Phrase 1 ts) :
    Phrase 9 (.openParen :: (ts ++ [.closeParen])) := by
  obtain ⟨e, he⟩ := h
  exact ⟨e, .group he⟩

/-- The expressions of a row, each with its tree. -/
theorem Row.parts {k : Nat} {ts : List Token} (h : Row (Phrase k) ts) :
    ∃ parts : List (List Token × Expr), parts ≠ []
      ∧ ts = List.intercalate [.comma] (parts.map (·.1)) ∧ ∀ p ∈ parts, Derives k p.1 p.2 := by
  obtain ⟨ls, hne, hls, rfl⟩ := h
  have hparts : ∃ parts : List (List Token × Expr), parts.map (·.1) = ls
      ∧ ∀ p ∈ parts, Derives k p.1 p.2 := by
    clear hne
    induction ls with
    | nil => exact ⟨[], rfl, by simp⟩
    | cons l ls ih =>
      obtain ⟨⟨e, he⟩, hmore⟩ := List.forall_mem_cons.mp hls
      obtain ⟨parts, hmap, hparts⟩ := ih hmore
      exact ⟨(l, e) :: parts, by rw [List.map_cons, hmap],
        List.forall_mem_cons.mpr ⟨he, hparts⟩⟩
  obtain ⟨parts, rfl, hparts⟩ := hparts
  exact ⟨parts, by simpa using hne, rfl, hparts⟩

/-- The name of an aggregate with arguments is an operand. -/
theorem Phrase.call {ts : List Token} (a : Aggregate) (h : Row (Phrase 1) ts) :
    Phrase 9 (.name none a.name :: .openParen :: (ts ++ [.closeParen])) := by
  obtain ⟨parts, hne, rfl, hparts⟩ := h.parts
  exact ⟨_, .call a hne hparts⟩

theorem isSpelled_openParen : (Token.openParen).IsSpelled := .symbol rfl

theorem isSpelled_closeParen : (Token.closeParen).IsSpelled := .symbol rfl

section

variable {nested : Parser Expr} (hs : Sound nested (Placed 1))

include hs

/-- What is read as a nested expression has the tokens of one. -/
theorem nested_phrase : Sound nested fun ts _ => Phrase 1 (ts.map (·.1)) := by
  intro c e c' hok
  obtain ⟨ts, hts, hplaced⟩ := hs c e c' hok
  exact ⟨ts, hts, hplaced.phrase⟩

/-- What is read as arguments is a row of expressions. -/
theorem arguments_row : Sound (arguments nested) fun ts _ => Row (Phrase 1) (ts.map (·.1)) :=
  (commaSeparated_row (nested_phrase hs)).mapFailure

variable (hf : Viable nested (Phrase 1))

include hf

/-- Wherever reading arguments fails, they can be completed. -/
theorem arguments_viable : Viable (arguments nested) (Row (Phrase 1)) :=
  (commaSeparated_viable (nested_phrase hs) hf fun _ hts => hts.head_ne_point).mapFailure
    fun _ => rfl

/-- Wherever reading a group fails, it can be completed. -/
theorem parenthesized_viable : Viable (parenthesized nested) (Phrase 9) := by
  refine Viable.spanned (Viable.bind ?_ (character_sound (t := .openParen) rfl (by decide)) ?_
    fun _ => Viable.mapFailure (Viable.bind ?_ hs ?_ fun e => ?_) fun _ => rfl)
  · exact (local_character _).viable _
      (Phrase.group (phrase_name.weaken (by decide)))
      (by simp [isSpelled_name, isSpelled_openParen, isSpelled_closeParen])
  · exact fun ts _ hts => head_ne_point_of_map hts (by simp)
  · refine hf.longer [.closeParen] ?_ (by simp [isSpelled_closeParen])
    intro us hus ts hts
    rw [hts]
    exact hus.group
  · exact fun ts e hts => hts.head_ne_point
  · refine Viable.behind_spacing (Viable.bind_total ?_ fun _ => total_pure _)
    refine (local_expectedCharacter _).viable [.closeParen] ?_ (by simp [isSpelled_closeParen])
    intro us hus ts hts
    rw [hts]
    exact hus.phrase.group

/-- Behind the name of an aggregate and a parenthesis no other reading is tried. -/
theorem call_error {c : Cursor} {f : Failure} (h : call nested c = .error f)
    (hfinal : f.final = true) : Completes (Phrase 9) c f.place := by
  obtain ⟨f', h', rfl⟩ := mapFailure_error h
  have h' := spanned_error h'
  rcases bind_error h' with h' | ⟨a, m₁, ha, h'⟩
  · exact nomatch (mild_aggregateName _ _ h').symm.trans hfinal
  obtain ⟨m₂, hgap, h'⟩ := bind_spacing_error h'
  rcases bind_error h' with h' | ⟨_, m₃, hopen, h'⟩
  · exact nomatch (mild_character _ _ _ h').symm.trans hfinal
  refine .behind (.located (aggregateName_located ha hgap hopen)) (by simp) ?_
  have hrest : Viable (committed do
      let es ← arguments nested
      spacing
      expectedCharacter ')'
      return fun span => Expr.call span a es)
      fun us => ∃ ts, Row (Phrase 1) ts ∧ us = ts ++ [.closeParen] := by
    refine Viable.mapFailure (Viable.bind ?_ (arguments_row hs) ?_ fun es => ?_) fun _ => rfl
    · exact (arguments_viable hs hf).longer _ (fun ts hts => ⟨ts, hts, rfl⟩)
        (by simp [isSpelled_closeParen])
    · exact fun ts es hts => hts.head_ne_point fun _ hl => hl.head_ne_point
    · refine Viable.behind_spacing (Viable.bind_total ?_ fun _ => total_pure _)
      exact (local_expectedCharacter _).viable _ (fun ts hts => ⟨_, hts, rfl⟩)
        (by simp [isSpelled_closeParen])
  refine (hrest m₃ f' h').mono ?_
  rintro us ⟨ts, hts, rfl⟩
  exact Phrase.call a hts

/-- Wherever reading an operand without signs fails, it can be completed. -/
theorem primary_viable : Viable (primary nested) (Phrase 9) := by
  refine Viable.mapFailure (Viable.mapFailure ?_ fun _ => rfl) fun _ => rfl
  intro c f h
  rcases orElse_error h with ⟨h, hfinal⟩ | ⟨⟨failure, hno⟩, h⟩
  · have hmild := ((mild_keyword "NaN").bind fun _ => mild_pure _).spanned c f h
    exact nomatch hmild.symm.trans hfinal
  rcases orElse_error h with ⟨h, hfinal⟩ | ⟨-, h⟩
  · have hmild := (mild_number.bind fun _ => mild_pure _).spanned c f h
    exact nomatch hmild.symm.trans hfinal
  rcases orElse_error h with ⟨h, -⟩ | ⟨-, h⟩
  · exact parenthesized_viable hs hf c f h
  rcases orElse_error h with ⟨h, hfinal⟩ | ⟨-, h⟩
  · exact call_error hs hf h hfinal
  rcases bind_error h with h | ⟨_, m, -, h⟩
  · obtain ⟨m, hm, hname⟩ := mention_error h
    refine hm.mono ?_
    rintro ts rfl
    refine ⟨_, .mention m ?_⟩
    rcases hname with hname | ⟨rest, hnext⟩
    · exact hname
    · exact hnext.firstName_ne_nan hno
  · exact absurd h (total_pure _ m f)

/-- Wherever reading an operand with signs fails, it can be completed. -/
theorem signed_viable : Viable (signed nested) (Phrase 8) := by
  have hsigns : Sound signs fun ts ss => ts = signTokensAt ss :=
    fun c ss c' hok => ⟨_, .located (signsAt_located (Except.ok.inj hok)), rfl⟩
  refine Viable.bind total_signs.viable hsigns ?_ fun ss => Viable.bind_total ?_ fun _ => total_pure _
  · rintro ts ss rfl
    cases ss with
    | nil => simp [signTokensAt]
    | cons s ss => cases s with | mk s at_ => cases s <;> simp [signTokensAt, Token.ofSign]
  · intro c f h
    rcases orElse_error h with ⟨h, hfinal⟩ | ⟨-, h⟩
    · have hmild := (mild_signedInfinity.bind fun _ => mild_pure _).spanned c f h
      exact nomatch hmild.symm.trans hfinal
    refine (primary_viable hs hf c f h).mono ?_
    rintro us hus ts rfl
    induction ss with
    | nil => exact hus.weaken (by decide)
    | cons s ss ih =>
      obtain ⟨e, he⟩ := ih
      exact ⟨_, .signed s.1 he⟩

end

/-! ## Operators -/

section

variable {operand : Parser Expr} {k : Nat} {os : List Operator} (hos : IsLevel k os)
  (hs : Sound operand (Placed (k + 1))) (hf : Viable operand (Phrase (k + 1)))

include hos hs hf

/-- Whatever is on the left, what the loop over the operators of a level reads goes on with it. -/
theorem chainFrom_viable (budget : Nat) (left : Expr) :
    Viable (chainFrom operand os budget left) fun us => ∀ ls, Phrase k ls → Phrase k (ls ++ us) := by
  induction budget generalizing left with
  | zero => exact (total_pure _).viable
  | succ budget ih =>
    have hoperator : Sound (operatorOf os) fun ts r => r.elim (ts = []) fun o =>
        o.precedence = k ∧ ts.map (·.1) = [.operator o] := by
      intro c r c' hok
      rcases operatorOf_ok hos hok with ⟨rfl, rfl, -⟩ | ⟨o, rfl, ho, hnext⟩
      · exact ⟨[], .located (.done (.refl _)), rfl⟩
      · exact ⟨_, .located ((advances_operatorOf os).located hok hnext), ho, rfl⟩
    have hstep : ∀ {o : Operator} {ts : List (Token × Span)} {us ls : List Token},
        o.precedence = k → ts.map (·.1) = [.operator o] → Phrase (k + 1) us → Phrase k ls →
        Phrase k (ls ++ (ts.map (·.1) ++ us)) := by
      rintro o ts us ls rfl hts ⟨r, hr⟩ ⟨l, hl⟩
      rw [hts]
      exact ⟨_, .binary o hl hr⟩
    refine Viable.behind_spacing (Viable.bind (total_operatorOf os).viable hoperator ?_ fun r => ?_)
    · intro ts r hts
      cases r with
      | none =>
        rw [show ts = [] from hts]
        simp
      | some o => exact head_ne_point_of_map hts.2 (by simp)
    · cases r with
      | none => exact (total_pure _).viable
      | some o =>
        refine Viable.bind ?_ hs (fun _ _ hts => hts.head_ne_point) fun right => ?_
        -- the right operand breaks off, or the loop does with a longer left one
        · exact hf.mono fun us hus ts hts ls hls => hstep hts.1 hts.2 hus hls
        · refine (ih _).mono fun vs hvs us hus ts hts ls hls => ?_
          have hall := hvs _ (hstep hts.1 hts.2 hus.phrase hls)
          simpa only [List.append_assoc] using hall

/-- Wherever reading a chain of operators fails, it can be completed. -/
theorem chain_viable : Viable (chain operand os) (Phrase k) := by
  refine Viable.bind (hf.mono fun ts hts => hts.weaken (Nat.le_succ k)) hs
    (fun _ _ hts => hts.head_ne_point) fun first => ?_
  refine Viable.bind total_remaining.viable remaining_sound ?_ fun budget => ?_
  · rintro ts _ rfl
    simp
  refine (chainFrom_viable hos hs hf _ first).mono ?_
  rintro us hus _ rfl ts hts
  exact hus _ (hts.phrase.weaken (Nat.le_succ k))

end

/-! ## Expressions -/

section

variable {nested : Parser Expr} (hs : Sound nested (Placed 1)) (hf : Viable nested (Phrase 1))

include hs hf

/-- Wherever reading the levels of the operators fails, the phrase can be completed. -/
theorem disjunction_viable : Viable (disjunction nested) (Phrase 2) := by
  have hproduct := chain_viable isLevel_product (signed_sound hs) (signed_viable hs hf)
  have hproduct' := chain_sound isLevel_product (signed_sound hs)
  have hsum := chain_viable isLevel_sum hproduct' hproduct
  have hsum' := chain_sound isLevel_sum hproduct'
  have hrelation := chain_viable isLevel_relation hsum' hsum
  have hrelation' := chain_sound isLevel_relation hsum'
  have hequality := chain_viable isLevel_equality hrelation' hrelation
  have hequality' := chain_sound isLevel_equality hrelation'
  have hconjunction := chain_viable isLevel_conjunction hequality' hequality
  have hconjunction' := chain_sound isLevel_conjunction hequality'
  exact chain_viable isLevel_disjunction hconjunction' hconjunction

/-- Wherever reading a conditional fails, it can be completed. -/
theorem conditional_viable : Viable (conditional nested) (Phrase 1) := by
  have hquestion := character_sound (t := .question) (x := '?') rfl (by decide)
  have hcolon := character_sound (t := .colon) (x := ':') rfl (by decide)
  have hspelled : (Token.colon).IsSpelled := .symbol rfl
  have hname : Phrase 1 [.name none "a"] := phrase_name.weaken (by decide)
  have hall : ∀ {cs ys ns : List Token}, Phrase 2 cs → Phrase 1 ys → Phrase 1 ns →
      Phrase 1 (cs ++ .question :: (ys ++ .colon :: ns)) := by
    rintro cs ys ns ⟨c, hc⟩ ⟨y, hy⟩ ⟨n, hn⟩
    exact ⟨_, .conditional hc hy hn⟩
  refine Viable.bind ?_ (disjunction_sound hs) (fun _ _ hts => hts.head_ne_point) fun c => ?_
  · exact (disjunction_viable hs hf).mono fun ts hts => hts.weaken (by decide)
  refine Viable.behind_spacing (Viable.bind ?_ hquestion.optional ?_ fun o => ?_)
  · exact (mild_character _).total_optional.viable
  · intro ts o hts
    cases o with
    | none =>
      rw [show ts = [] from hts]
      simp
    | some _ => exact head_ne_point_of_map hts (by simp)
  cases o with
  | none => exact (total_pure _).viable
  | some _ =>
    refine Viable.mapFailure (Viable.mapFailure ?_ fun _ => rfl) fun _ => rfl
    refine Viable.bind ?_ hs (fun _ _ hts => hts.head_ne_point) fun y => ?_
    -- the first branch breaks off, then the colon is missing, then the second branch breaks off
    · refine hf.longer [.colon, .name none "a"] ?_ (by simp [hspelled, isSpelled_name])
      intro ys hys ts hts cs hcs
      rw [show ts.map (·.1) = [.question] from hts]
      exact hall hcs.phrase hys hname
    refine Viable.behind_spacing (Viable.bind ?_ hcolon.mapFailure ?_ fun _ => ?_)
    · refine (local_expectedCharacter _).viable [.colon, .name none "a"] ?_
        (by simp [hspelled, isSpelled_name])
      intro ys hys ts hts cs hcs
      rw [show ts.map (·.1) = [.question] from hts]
      exact hall hcs.phrase hys.phrase hname
    · exact fun ts _ hts => head_ne_point_of_map hts (by simp)
    · refine Viable.bind_total (hf.mono ?_) fun _ => total_pure _
      intro ns hns us hus ys hys ts hts cs hcs
      rw [hus, show ts.map (·.1) = [.question] from hts]
      exact hall hcs.phrase hys.phrase hns

end

/-- Wherever reading an expression fails, it can be completed, at any depth of nesting. -/
theorem expressionWithin_viable (depth : Nat) : Viable (expressionWithin depth) (Phrase 1) := by
  induction depth with
  | zero =>
    exact local_fail.viable _ (phrase_name.weaken (by decide)) (by simp [isSpelled_name])
  | succ depth ih =>
    exact (conditional_viable (expressionWithin_sound depth) ih).mapFailure fun _ => rfl

/-- Wherever reading an expression fails, it can be completed. -/
theorem expression_viable : Viable expression (Phrase 1) :=
  fun c f h => expressionWithin_viable (c.rest.length + 1) c f h

/-! ## Whole texts -/

/-- Reading a phrase as a whole text is viable if reading the phrase is. -/
theorem complete_viable {p : Parser α} (hs : Sound p fun ts _ => L (ts.map (·.1))) (hf : Viable p L)
    (hpoint : ∀ ts, L ts → ts.head? ≠ some .point) : Viable (complete p) L := by
  refine Viable.bind hf hs ?_ fun a => ?_
  · exact fun ts _ hts => hpoint _ hts
  refine Viable.behind_spacing (Viable.bind_total ?_ fun _ => total_pure _)
  refine local_endOfText.expecting.viable [] ?_ (by simp)
  intro ts hts
  rw [List.append_nil]
  exact hts

/-- Wherever reading a text as an expression fails, it can be completed. -/
theorem complete_expression_viable : Viable (complete expression) (Phrase 1) := by
  refine complete_viable ?_ expression_viable fun _ hts => hts.head_ne_point
  exact nested_phrase expression_sound

/-- Wherever reading a text as a list of expressions fails, it can be completed. -/
theorem complete_arguments_viable : Viable (complete (arguments expression)) (Row (Phrase 1)) :=
  complete_viable (arguments_row expression_sound) (arguments_viable expression_sound expression_viable)
    fun _ hts => hts.head_ne_point fun _ hl => hl.head_ne_point

/-- Wherever reading a text as a mention fails, it can be completed. -/
theorem soleMention_viable : Viable soleMention IsMention :=
  (complete_viable mention_sound mention_viable fun _ hts => hts.head_ne_point).behind_spacing

/-- The tokens of some definition. -/
def IsDefinition (ts : List Token) : Prop := ∃ a, DerivesAssignment ts a

/-- A mention, an equals sign and an expression form a definition. -/
theorem isDefinition {m : Mention} {us : List Token} (h : Phrase 1 us) :
    IsDefinition (m.tokens ++ .equals :: us) := by
  obtain ⟨e, he⟩ := h
  exact ⟨⟨m, .none, e⟩, us, he, rfl⟩

/-- An infinity does not end with an equals sign. -/
theorem not_infinity_equals (y : List Char) (s : Sign) : ¬ Spells (y ++ ['=']) (.infinity s) := by
  intro h
  obtain ⟨c, v, hword, -, hv⟩ := infinity_word h
  have hlast := congrArg List.getLast? hword
  rcases hv with rfl | rfl <;> simp at hlast

/-- No expression is begun in front of an equals sign. -/
theorem Stuck.eq_nil_of_equals {c c' : Cursor} {ts us : List Token} (h : Stuck c ts c')
    (hhead : c.rest.head? = some '=') (hphrase : Phrase 1 (ts ++ us)) : ts = [] ∧ c' = c := by
  have hspace : c.rest.head?.any isSpacing = false := by
    rw [hhead]
    rfl
  have hheads : ∀ {t : Token} {vs : List Token}, Phrase 1 (t :: vs) → ¬ t.Heads '=' :=
    fun ⟨_, he⟩ => he.not_equals
  -- a token that is read would start with the sign
  have hfirst : ∀ {p : Token × Span} {ps : List (Token × Span)} {vs : List Token} {m : Cursor},
      Located c (p :: ps) m → ¬ Phrase 1 (p.1 :: vs) := by
    intro p ps vs m h hphrase
    cases h with
    | token gap word next more =>
      obtain rfl := gap.eq_of_head hspace
      obtain ⟨d, ds, hd, hdheads⟩ := next.starts.heads
      rw [hd] at hhead
      obtain rfl : d = '=' := Option.some.inj hhead
      exact hheads hphrase hdheads
  cases h with
  | @between _ ps h =>
    cases ps with
    | nil =>
      cases h with
      | done gap => exact ⟨rfl, (gap.eq_of_head hspace).symm⟩
    | cons p ps => exact absurd hphrase (hfirst h)
  | @behind m _ ps t w h word hw hend =>
    cases ps with
    | nil =>
      cases h with
      | done gap =>
        obtain rfl := gap.eq_of_head hspace
        obtain ⟨d, ds, rfl, hd⟩ := hw.heads
        rw [word.text] at hhead
        obtain rfl : d = '=' := Option.some.inj hhead
        exact absurd hd (hheads hphrase)
    | cons p ps => exact absurd hphrase (hfirst h)
  | @within m _ ps v v' h word hv =>
    cases ps with
    | nil =>
      cases h with
      | done gap =>
        obtain rfl := gap.eq_of_head hspace
        rw [word.text] at hhead
        exact absurd (Option.some.inj hhead) (by decide)
    | cons p ps => exact absurd hphrase (hfirst h)

/-- Behind a statistic and the sign of a definition, an expression that is begun completes the
definition. -/
theorem Completes.behind_equals {c m m' c' : Cursor} {ts : List (Token × Span)} {target : Mention}
    (hts : Located c ts m) (htokens : ts.map (·.1) = target.tokens) (word : Between m ['='] m')
    (h : Completes (Phrase 1) m' c') : Completes IsDefinition c c' := by
  obtain ⟨us, vs, hstuck, hus, hphrase, hvs⟩ := h
  by_cases hhead : m'.rest.head? = some '='
  · -- the sign and what comes behind it are read as one token
    obtain ⟨rfl, hplace⟩ := hstuck.eq_nil_of_equals hhead hphrase
    rw [hplace]
    refine ⟨_, vs, .behind (t := .equals) hts word (.symbol rfl) (.inr not_infinity_equals), ?_,
      ?_, hvs⟩
    · rw [htokens]
      simp [Mention.tokens]
    · rw [htokens, List.append_assoc]
      exact isDefinition hphrase
  · have hnext : Next m.rest .equals m'.rest := by
      rw [word.text]
      exact next_character rfl (fun h => absurd h (by decide)) fun _ h => absurd h hhead
    refine .behind (.located (hts.append (.single (.refl m) word hnext))) ?_
      ⟨us, vs, hstuck, hus, ?_, hvs⟩
    · rw [List.map_append, htokens]
      simp [Mention.tokens]
    · rw [List.map_append, htokens]
      show IsDefinition (target.tokens ++ [.equals] ++ (us ++ vs))
      rw [List.append_assoc]
      exact isDefinition hphrase

/-- Wherever reading a definition fails, it can be completed. -/
theorem definition_viable : Viable definition IsDefinition := by
  have hspelled : ∀ t ∈ [Token.equals, .name none "a"], t.IsSpelled := by
    have hequals : (Token.equals).IsSpelled := .symbol rfl
    simp [hequals, isSpelled_name]
  have hname : Phrase 1 [.name none "a"] := phrase_name.weaken (by decide)
  refine Viable.behind_spacing fun c f h => ?_
  rcases bind_error h with h | ⟨⟨target, span⟩, m₁, htarget, h⟩
  · refine (mention_viable c f h).longer _ ?_ hspelled
    rintro ts ⟨m, rfl⟩
    exact isDefinition hname
  obtain ⟨ts, hts, htokens, -⟩ := mention_ok htarget
  obtain ⟨m₂, hgap, h⟩ := bind_spacing_error h
  have hts := hts.to_gap hgap
  rcases bind_error h with h | ⟨_, m₃, hx, h⟩
  · rw [local_expectedCharacter '=' m₂ f h]
    refine .behind (.located hts) ?_ (.here m₂ _ ?_ hspelled)
    · rw [htokens]
      simp [Mention.tokens]
    · rw [htokens]
      exact isDefinition hname
  rcases bind_error h with h | ⟨body, m₄, -, h⟩
  · exact (expression_viable m₃ f h).behind_equals hts htokens (expectedCharacter_between hx)
  · exact absurd h (total_pure _ m₄ f)

/-- Wherever reading a text as a definition fails, it can be completed. -/
theorem assignment_viable : Viable assignment IsDefinition := by
  rw [assignment_eq_complete]
  refine Viable.mapFailure (complete_viable ?_ definition_viable ?_) fun _ => rfl
  · intro c a c' hok
    obtain ⟨ts, hts, hplaced⟩ := definition_sound c a c' hok
    exact ⟨ts, hts, a.bare, hplaced.derives⟩
  · rintro ts ⟨a, us, -, rfl⟩
    simp [Mention.tokens]

end DerivedStats.Grammar
