import DerivedStats.Proofs.Number.Digits
import DerivedStats.Proofs.Writing.Lexing
import DerivedStats.Syntax.Render

/-!
# The tokens of written trees

What a tree is made of once it is written (`Expr.tokens`), for all trees that a text or a
substitution gives rise to (`Expr.Written`). The tokens follow the tree, but for two things: a
negative number is written with a sign and its magnitude, and a sign directly in front of the name
of an infinity makes one word with it.

Main result: `Expr.Written.writes_text`.
-/

namespace DerivedStats

open Grammar

/-! ## Numbers -/

/-- The tokens of a number. -/
def Number.tokens (x : Float) : List Token :=
  if x.isNaN then [.name none "NaN"]
  else if x.isInf then [.infinity (if isNegative x then .minus else .plus)]
  else if isNegative x then [.operator .subtract, .number (magnitude x)]
  else [.number (magnitude x)]

namespace Number

/-- A sign and the name of the infinity are the word of an infinite number. -/
theorem writes_infinity (s : Sign) : Writes (s.symbol.toList ++ "Inf".toList) [.infinity s] :=
  writes_token fun rest hrest => by
    rw [List.append_assoc]
    exact next_sign_infinity s (.inl rfl) (hrest.not_any (by decide))

/-- The digits of a finite number are the word of its magnitude. -/
theorem writes_digits {x : Float} (hnan : x.isNaN = false) (hinf : x.isInf = false) :
    Writes (digits x) [.number (magnitude x)] := by
  obtain ⟨whole, f, fraction, hwhole, hf, htext, hvalue⟩ := digits_spell hnan hinf
  refine writes_token fun rest hrest => ?_
  have hends : NumberEnds f [] rest := by
    refine ⟨hrest.not_any (by decide), fun _ _ ds r hds => ?_, fun _ q n ds r hq hne => ?_⟩
    · rintro rfl
      exact hrest.head_ne (by decide : '.' ∉ _) rfl
    · obtain ⟨mark, q', rfl, hmark⟩ := hq.head hne
      rintro rfl
      rcases hmark with rfl | rfl
      · exact hrest.head_ne (by decide : 'e' ∉ _) rfl
      · exact hrest.head_ne (by decide : 'E' ∉ _) rfl
  have hnext := next_number hwhole hf .absent hends
  rwa [hvalue, List.nil_append, ← List.append_assoc, ← htext] at hnext

theorem writes_nan : Writes "NaN".toList [.name none "NaN"] :=
  writes_token fun rest hrest =>
    next_name ⟨'N', ['a', 'N'], rfl, by decide, List.all_eq_true.mp (by decide)⟩
      (hrest.not_any (by decide)) hrest.not_point

/-- A number is written as its tokens. -/
theorem writes_text (x : Float) : Writes (text x).toList (tokens x) := by
  unfold text tokens
  split
  · exact writes_nan
  · next hnan =>
    split
    · split
      · exact writes_infinity .minus
      · exact writes_infinity .plus
    · next hinf =>
      have hdigits := writes_digits (Bool.eq_false_iff.mpr hnan) (Bool.eq_false_iff.mpr hinf)
      rw [String.toList_ofList]
      split
      · exact hdigits.sign .minus
      · exact hdigits

end Number

/-! ## Mentions -/

/-- Key and value of the dimension are words of their classes. -/
def Dimension.IsSpelled (d : Dimension) : Prop := IsName d.key.toList ∧ IsValue d.value.toList

/-- All names and values of the mention are words of their classes. -/
structure Mention.IsSpelled (m : Mention) : Prop where
  category : ∀ c, m.category = some c → IsName c.toList
  name : IsName m.name.toList
  dimensions : ∀ d ∈ m.dimensions, d.IsSpelled

/-- A dimension is written as its tokens. -/
theorem Dimension.IsSpelled.writes_text {d : Dimension} (h : d.IsSpelled) :
    Writes d.text.toList d.tokens := by
  obtain ⟨hkey, hvalue⟩ := h
  have htext : d.text.toList = d.key.toList ++ ':' :: '"' :: (d.value.toList ++ ['"']) := by
    simp [Dimension.text]
  rw [htext]
  intro rest hrest
  have hquoted : Next ('"' :: (d.value.toList ++ '"' :: rest)) (.quoted d.value) rest := by
    simpa only [String.ofList_toList] using next_quoted hvalue
  have hcolon : Next (':' :: '"' :: (d.value.toList ++ '"' :: rest)) .colon
      ('"' :: (d.value.toList ++ '"' :: rest)) := next_character rfl (by simp) (by simp)
  have hname : Next (d.key.toList ++ ':' :: '"' :: (d.value.toList ++ '"' :: rest))
      (.name none d.key) (':' :: '"' :: (d.value.toList ++ '"' :: rest)) := by
    simpa only [String.ofList_toList] using next_name hkey (by rfl) (by simp)
  refine ⟨_, _, _, rfl, by simpa using hname, ?_, by simp⟩
  exact .token (by rwa [hcolon.ahead_eq]) (.single (by rwa [hquoted.ahead_eq]))

/-- Category and name of the mention as they are written. -/
def Mention.label (m : Mention) : List Char :=
  match m.category with
  | some c => c.toList ++ '.' :: m.name.toList
  | none => m.name.toList

/-- The dimensions of the mention as they are written. -/
def Mention.braces (m : Mention) : List Char :=
  if m.dimensions = [] then []
  else
    '\x7b' :: (List.intercalate [','] (m.dimensions.map fun d => d.text.toList) ++ ['\x7d'])

/-- A mention is written as its label and its braces. -/
theorem Mention.toList_text (m : Mention) : m.text.toList = m.label ++ m.braces := by
  obtain ⟨category, name, ds⟩ := m
  unfold text label braces
  cases category <;> cases ds <;> simp [String.toList_intercalate, Function.comp_def]

/-- The label is one token, whatever ends the name. -/
theorem Mention.IsSpelled.next_label {m : Mention} (h : m.IsSpelled) {rest : List Char}
    (hend : rest.head?.any isNameChar = false) (hpoint : rest.head? ≠ some '.') :
    Next (m.label ++ rest) (.name m.category m.name) rest := by
  unfold label
  cases hcategory : m.category with
  | none =>
    have hnext := next_name h.name hend fun c cs hcs => absurd (by rw [hcs]; rfl) hpoint
    rwa [String.ofList_toList] at hnext
  | some c =>
    have hnext := next_qualified (h.category c hcategory) h.name hend
    simpa using hnext

/-- The braces of a mention are made of their tokens, whatever follows. -/
theorem Mention.IsSpelled.lexes_braces {m : Mention} (h : m.IsSpelled) (hne : m.dimensions ≠ [])
    (rest : List Char) :
    Lexes (m.braces ++ rest)
      (.openBrace :: (List.intercalate [.comma] (m.dimensions.map Dimension.tokens)
        ++ [.closeBrace])) rest := by
  have hitems : Writes (List.intercalate [','] (m.dimensions.map fun d => d.text.toList))
      (List.intercalate [.comma] (m.dimensions.map Dimension.tokens)) :=
    writes_intercalate (by simp) hne fun d hd => (h.dimensions d hd).writes_text
  have hclose : Next ('\x7d' :: rest) .closeBrace rest := next_character rfl (by simp) (by simp)
  have hopen : ∀ cs, Next ('\x7b' :: cs) .openBrace cs := fun cs =>
    next_character rfl (by simp) (by simp)
  rw [braces, if_neg hne, List.cons_append, List.append_assoc]
  exact .token (by rw [(hopen _).ahead_eq]; exact hopen _)
    ((hitems.lexes (.inr ⟨'\x7d', rest, rfl, by decide⟩)).append
      (.single (by rwa [hclose.ahead_eq])))

/-- A mention is written as its tokens. -/
theorem Mention.IsSpelled.writes_text {m : Mention} (h : m.IsSpelled) :
    Writes m.text.toList m.tokens := by
  intro rest hrest
  rw [Mention.toList_text, List.append_assoc, Mention.tokens]
  by_cases hne : m.dimensions = []
  · have hnext := h.next_label (hrest.not_any (by decide)) (hrest.head_ne (by decide))
    rw [if_pos hne, show m.braces ++ rest = rest by simp [braces, hne]]
    exact ⟨_, _, _, rfl, hnext, .done rfl, fun _ _ _ => hrest.head_ne (by decide)⟩
  · have hhead : (m.braces ++ rest).head? = some '\x7b' := by simp [braces, hne]
    have hnext : Next (m.label ++ (m.braces ++ rest)) (.name m.category m.name) (m.braces ++ rest) :=
      h.next_label (by rw [hhead]; rfl) (by simp [hhead])
    rw [if_neg hne]
    exact ⟨_, _, _, rfl, hnext, h.lexes_braces hne rest, fun _ _ _ => by simp [hhead]⟩

/-! ## Trees -/

/-- The tokens of a phrase, in parentheses if they are needed. -/
def groupTokens (needed : Bool) (ts : List Token) : List Token :=
  if needed then .openParen :: (ts ++ [.closeParen]) else ts

namespace Expr

mutual

/-- The tokens of the written tree. -/
def tokens : Expr → List Token
  | literal _ v => Number.tokens v
  | mention _ m => m.tokens
  | signed _ s e => signTokens s (groupTokens (e.precedence < signPrecedence) e.tokens)
  | binary _ l o r =>
    groupTokens (l.precedence < o.precedence) l.tokens ++
      .operator o :: groupTokens (r.precedence ≤ o.precedence) r.tokens
  | conditional _ c y n =>
    groupTokens (c.precedence ≤ conditionalPrecedence) c.tokens ++
      .question :: (y.tokens ++ .colon :: n.tokens)
  | call _ a es =>
    .name none a.name :: .openParen :: (List.intercalate [.comma] (tokensOf es) ++ [.closeParen])
  | list _ es => List.intercalate [.comma] (tokensOf es)

/-- The tokens of the written trees, one by one. -/
def tokensOf : List Expr → List (List Token)
  | [] => []
  | e :: es => e.tokens :: tokensOf es

end

theorem tokensOf_eq_map (es : List Expr) : tokensOf es = es.map tokens := by
  induction es with
  | nil => simp [tokensOf]
  | cons e es ih => simp [tokensOf, ih]

/-- A number, or a minus sign in front of one: what the text of a single value is read as. -/
inductive IsConstant : Expr → Prop where
  | literal (s : Span) (v : Float) : IsConstant (literal s v)
  | negative (s t : Span) (v : Float) : IsConstant (signed s .minus (literal t v))

/-- The tree is one that is ever written: its mentions are made of words and not taken for `NaN`,
its calls have arguments, and its lists, if `lists` admits any, hold several constants. -/
inductive Written (lists : Prop) : Expr → Prop where
  | literal (s : Span) (v : Float) : Written lists (literal s v)
  | mention (s : Span) {m : Mention} (h : m.IsSpelled) (hnan : m.firstName ≠ "NaN") :
      Written lists (mention s m)
  | signed (s : Span) (o : Sign) {e : Expr} (h : Written lists e) : Written lists (signed s o e)
  | binary (s : Span) (o : Operator) {l r : Expr} (hl : Written lists l) (hr : Written lists r) :
      Written lists (binary s l o r)
  | conditional (s : Span) {c y n : Expr} (hc : Written lists c) (hy : Written lists y)
      (hn : Written lists n) : Written lists (conditional s c y n)
  | call (s : Span) (a : Aggregate) {es : List Expr} (hne : es ≠ [])
      (h : ∀ e ∈ es, Written lists e) : Written lists (call s a es)
  | list (hlists : lists) (s : Span) {es : List Expr} (hlength : 2 ≤ es.length)
      (hconstant : ∀ e ∈ es, e.IsConstant) (h : ∀ e ∈ es, Written lists e) :
      Written lists (list s es)

end Expr

/-- Parentheses are written where they are needed. -/
theorem writes_groupTokens (needed : Bool) {s : String} {ts : List Token}
    (h : Writes s.toList ts) :
    Writes (Expr.parenthesize needed s).toList (groupTokens needed ts) := by
  unfold Expr.parenthesize groupTokens
  cases needed with
  | false => exact h
  | true => simpa using h.group

/-- Arguments are written with commas and spaces between them. -/
theorem writes_arguments {es : List Expr} (hne : es ≠ [])
    (h : ∀ e ∈ es, Writes e.text.toList e.tokens) :
    Writes (", ".intercalate (Expr.texts es)).toList
      (List.intercalate [.comma] (Expr.tokensOf es)) := by
  have hitems : Writes (List.intercalate [',', ' '] (es.map fun e => e.text.toList))
      (List.intercalate [.comma] (es.map Expr.tokens)) :=
    writes_intercalate (List.all_eq_true.mp (by decide)) hne h
  rw [String.toList_intercalate, Expr.texts_eq_map, Expr.tokensOf_eq_map, List.map_map]
  exact hitems

/-- A call is written as the name of its aggregate in front of the parentheses. -/
theorem writes_call {a : Aggregate} {w : List Char} {ts : List Token} (h : Writes w ts) :
    Writes (a.name.toList ++ '(' :: (w ++ [')']))
      (.name none a.name :: .openParen :: (ts ++ [.closeParen])) := by
  intro rest hrest
  rw [List.append_assoc]
  have hname : Next (a.name.toList ++ ('(' :: (w ++ [')']) ++ rest)) (.name none a.name)
      ('(' :: (w ++ [')']) ++ rest) := by
    simpa only [String.ofList_toList] using next_name (isName_aggregate a) (by rfl) (by simp)
  exact ⟨_, _, _, rfl, hname, h.group.lexes hrest, by simp⟩

/-- **A tree is written as its tokens.** -/
theorem Expr.Written.writes_text {lists : Prop} {e : Expr} (h : e.Written lists) :
    Writes e.text.toList e.tokens := by
  induction h with
  | literal s v =>
    rw [text, tokens]
    exact Number.writes_text v
  | mention s h _ =>
    rw [text, tokens]
    exact h.writes_text
  | signed s o _ ih =>
    rw [text, tokens, String.toList_append]
    exact (writes_groupTokens _ ih).sign o
  | @binary s o l r _ _ hl hr =>
    rw [text, tokens]
    have hwrites := (writes_groupTokens (l.precedence < o.precedence) hl).spaced
      (t := .operator o) rfl (writes_groupTokens (r.precedence ≤ o.precedence) hr)
    simpa using hwrites
  | @conditional s c _ _ _ _ _ hc hy hn =>
    rw [text, tokens]
    have hwrites := (writes_groupTokens (c.precedence ≤ conditionalPrecedence) hc).spaced
      (t := .question) rfl (hy.spaced (t := .colon) rfl hn)
    simpa using hwrites
  | call s a hne _ ih =>
    rw [text, tokens]
    simpa using writes_call (writes_arguments hne ih)
  | list _ s hlength _ _ ih =>
    rw [text, tokens]
    exact writes_arguments (by rintro rfl; simp at hlength) ih

end DerivedStats
