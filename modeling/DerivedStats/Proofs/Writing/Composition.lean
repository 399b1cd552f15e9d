import DerivedStats.Proofs.Evaluation.Outcome
import DerivedStats.Proofs.Writing.RoundTrip

/-!
# Trees that were put together

A tree that was read has no lists and no negative numbers. One that was put together may have both:
any double as a number, and lists of arguments among the arguments of a call (`Expr.Composed`). Its
text is that of the tree with the lists spliced into the calls (`Expr.splice`), since a list is
written with the commas of the call around it. So this is the tree that is read back, with the
negative numbers as signs and magnitudes, and it means what the composed tree means
(`Expr.ofText_text_composed`).
-/

namespace DerivedStats

open Grammar

namespace Expr

/-- The tree is one that can be put together. Its numbers are any doubles, its mentions are made of
words and not taken for `NaN`, and its calls have arguments. Lists are not empty and stand directly
among the arguments of a call, or directly in such a list; `argument` tells whether the tree itself
stands there. -/
inductive Composed : Bool → Expr → Prop where
  | literal (argument : Bool) (s : Span) (v : Float) : Composed argument (literal s v)
  | mention (argument : Bool) (s : Span) {m : Mention} (h : m.IsSpelled)
      (hnan : m.firstName ≠ "NaN") : Composed argument (mention s m)
  | signed (argument : Bool) (s : Span) (o : Sign) {e : Expr} (h : Composed false e) :
      Composed argument (signed s o e)
  | binary (argument : Bool) (s : Span) (o : Operator) {l r : Expr} (hl : Composed false l)
      (hr : Composed false r) : Composed argument (binary s l o r)
  | conditional (argument : Bool) (s : Span) {c y n : Expr} (hc : Composed false c)
      (hy : Composed false y) (hn : Composed false n) : Composed argument (conditional s c y n)
  | call (argument : Bool) (s : Span) (a : Aggregate) {es : List Expr} (hne : es ≠ [])
      (h : ∀ e ∈ es, Composed true e) : Composed argument (call s a es)
  | list (s : Span) {es : List Expr} (hne : es ≠ []) (h : ∀ e ∈ es, Composed true e) :
      Composed true (list s es)

/-! ## Splicing -/

mutual

/-- The tree with each list among arguments replaced by its elements. -/
def splice : Expr → Expr
  | literal s v => literal s v
  | mention s m => mention s m
  | signed s o e => signed s o e.splice
  | binary s l o r => binary s l.splice o r.splice
  | conditional s c y n => conditional s c.splice y.splice n.splice
  | call s a es => call s a (spliceAll es)
  | list s es => list s (spliceAll es)

/-- The trees side by side, with each list replaced by its elements. -/
def spliceAll : List Expr → List Expr
  | [] => []
  | list _ inner :: es => spliceAll inner ++ spliceAll es
  | e :: es => e.splice :: spliceAll es

end

/-- What a tree is among arguments: the elements of a list, or the tree itself. -/
def items : Expr → List Expr
  | list _ es => spliceAll es
  | e => [e.splice]

theorem spliceAll_eq_flatMap (es : List Expr) : spliceAll es = es.flatMap items := by
  induction es with
  | nil => simp [spliceAll]
  | cons e es ih => cases e <;> simp [spliceAll, items, ih]

/-- A tree that is no argument is its own only item. -/
theorem Composed.items_eq {e : Expr} (h : Composed false e) : e.items = [e.splice] := by
  cases h <;> rfl

/-- What holds of the items of a tree that is no argument holds of the spliced tree. -/
theorem Composed.of_items {P : Expr → Prop} {e : Expr} (h : Composed false e)
    (hitems : ∀ p ∈ e.items, P p) : P e.splice :=
  hitems _ (by rw [h.items_eq]; exact List.mem_singleton_self _)

@[simp] theorem precedence_splice (e : Expr) : e.splice.precedence = e.precedence := by
  cases e <;> rfl

/-! ## Signs -/

/-- The items of a tree have the signs of the spliced tree. -/
theorem any_items (e : Expr) : e.items.any signsInfinity = e.splice.signsInfinity := by
  cases e with
  | list s es => rw [items, splice, signsInfinity, anySignsInfinity_eq_any]
  | _ => simp [items]

theorem mentionsInfinity_splice (e : Expr) : e.splice.mentionsInfinity = e.mentionsInfinity := by
  cases e <;> rfl

/-- Splicing moves no sign. -/
theorem signsInfinity_splice (e : Expr) : e.splice.signsInfinity = e.signsInfinity := by
  have hall : ∀ {es : List Expr}, (∀ e ∈ es, e.splice.signsInfinity = e.signsInfinity) →
      anySignsInfinity (spliceAll es) = anySignsInfinity es := by
    intro es hes
    rw [anySignsInfinity_eq_any, anySignsInfinity_eq_any, spliceAll_eq_flatMap, List.any_flatMap,
      Bool.eq_iff_iff, List.any_eq_true, List.any_eq_true]
    exact exists_congr fun e => and_congr_right fun he => by rw [any_items, hes e he]
  induction e using induction_parts with
  | literal | mention => rfl
  | signed s o e ih => rw [splice, signsInfinity, signsInfinity, ih, mentionsInfinity_splice]
  | binary s l o r hl hr => rw [splice, signsInfinity, signsInfinity, hl, hr]
  | conditional s c y n hc hy hn => rw [splice, signsInfinity, signsInfinity, hc, hy, hn]
  | call s a es ih | list s es ih => rw [splice, signsInfinity, signsInfinity, hall ih]

/-! ## Values -/

variable {scope : Scope}

/-- Trees side by side have their values one after the other. -/
theorem values?_append (es fs : List Expr) :
    values? scope (es ++ fs) =
      (values? scope es).bind fun xs => (values? scope fs).map (xs ++ ·) := by
  induction es with
  | nil => simp
  | cons e es ih =>
    rw [List.cons_append, values?_cons, values?_cons, ih]
    cases e.outcome? scope with
    | none => rfl
    | some o =>
      cases values? scope es with
      | none => rfl
      | some xs => cases values? scope fs <;> simp

/-- The items of a tree have the values of the spliced tree. -/
theorem values?_items (e : Expr) :
    values? scope e.items = (e.splice.outcome? scope).map Outcome.values := by
  cases e with
  | list s es =>
    rw [items, splice, outcome?_list, Option.map_map]
    exact Option.map_id'.symm
  | _ =>
    rw [items, values?_cons, values?_nil]
    · cases (splice _).outcome? scope <;> simp
    · exact nofun

/-- Splicing keeps the values of trees side by side. -/
theorem values?_spliceAll {es : List Expr}
    (h : ∀ e ∈ es, e.splice.outcome? scope = e.outcome? scope) :
    values? scope (spliceAll es) = values? scope es := by
  rw [spliceAll_eq_flatMap]
  induction es with
  | nil => rfl
  | cons e es ih =>
    rw [List.flatMap_cons, values?_append, values?_items, h e (by simp),
      ih fun f hf => h f (by simp [hf]), values?_cons, Option.bind_map]
    rfl

/-- Splicing keeps the meaning. -/
theorem outcome?_splice (e : Expr) : e.splice.outcome? scope = e.outcome? scope := by
  induction e using induction_parts with
  | literal | mention => rfl
  | signed s o e ih => exact outcome?_signed_congr ih
  | binary s l o r hl hr =>
    rw [splice, outcome?_binary, outcome?_binary, number?_congr hl, number?_congr hr]
  | conditional s c y n hc hy hn =>
    rw [splice, outcome?_conditional, outcome?_conditional, number?_congr hc, hy, hn]
  | call s a es ih => rw [splice, outcome?_call, outcome?_call, values?_spliceAll ih]
  | list s es ih => rw [splice, outcome?_list, outcome?_list, values?_spliceAll ih]

/-! ## Texts -/

/-- If no tree is without items then something is left of some trees. -/
theorem spliceAll_ne_nil {es : List Expr} (hne : es ≠ []) (h : ∀ e ∈ es, e.items ≠ []) :
    spliceAll es ≠ [] := by
  obtain ⟨e, he⟩ := List.exists_mem_of_ne_nil _ hne
  obtain ⟨p, hp⟩ := List.exists_mem_of_ne_nil _ (h e he)
  rw [spliceAll_eq_flatMap]
  exact List.ne_nil_of_mem (List.mem_flatMap.mpr ⟨e, he, hp⟩)

/-- A composed tree has items. -/
theorem Composed.items_ne_nil {argument : Bool} {e : Expr} (h : Composed argument e) :
    e.items ≠ [] := by
  induction h with
  | list s hne _ ih => exact spliceAll_ne_nil hne ih
  | _ => exact List.cons_ne_nil _ _

/-- Spliced trees have no lists, so they are ones that a text can give rise to. -/
theorem Composed.written_items {argument : Bool} {e : Expr} (h : Composed argument e) :
    ∀ p ∈ e.items, p.Written False := by
  have hall : ∀ {es : List Expr}, (∀ e ∈ es, ∀ p ∈ e.items, p.Written False) →
      ∀ p ∈ spliceAll es, p.Written False := by
    intro es hes p hp
    rw [spliceAll_eq_flatMap] at hp
    obtain ⟨e, he, hp⟩ := List.mem_flatMap.mp hp
    exact hes e he p hp
  induction h with
  | literal _ s v => exact List.forall_mem_singleton.mpr (.literal s v)
  | mention _ s h hnan => exact List.forall_mem_singleton.mpr (.mention s h hnan)
  | signed _ s o h ih => exact List.forall_mem_singleton.mpr (.signed s o (h.of_items ih))
  | binary _ s o hl hr ihl ihr =>
    exact List.forall_mem_singleton.mpr (.binary s o (hl.of_items ihl) (hr.of_items ihr))
  | conditional _ s hc hy hn ihc ihy ihn =>
    exact List.forall_mem_singleton.mpr
      (.conditional s (hc.of_items ihc) (hy.of_items ihy) (hn.of_items ihn))
  | call _ s a hne h ih =>
    have hitems := spliceAll_ne_nil hne fun e he => (h e he).items_ne_nil
    exact List.forall_mem_singleton.mpr (.call s a hitems (hall ih))
  | list s _ _ ih => exact hall ih

/-- Texts with commas between them may be made of the items of each tree first. -/
theorem intercalate_spliceAll {f g : Expr → String} {es : List Expr} (hne : ∀ e ∈ es, e.items ≠ [])
    (htext : ∀ e ∈ es, ", ".intercalate (e.items.map f) = g e) :
    ", ".intercalate ((spliceAll es).map f) = ", ".intercalate (es.map g) := by
  rw [spliceAll_eq_flatMap]
  induction es with
  | nil => rfl
  | cons e es ih =>
    have hfirst := htext e (by simp)
    have hmore := ih (fun f hf => hne f (by simp [hf])) fun f hf => htext f (by simp [hf])
    by_cases hnil : es = []
    · simpa [hnil] using hfirst
    · have hrest : es.flatMap items ≠ [] := by
        rw [← spliceAll_eq_flatMap]
        exact spliceAll_ne_nil hnil fun f hf => hne f (by simp [hf])
      rw [List.flatMap_cons, List.map_append, List.map_cons,
        String.intercalate_append_of_ne_nil (by simpa using hne e (by simp)) (by simpa using hrest),
        hfirst, hmore, ← List.singleton_append,
        String.intercalate_append_of_ne_nil (List.cons_ne_nil _ _) (by simpa using hnil),
        String.intercalate_singleton]

/-- Spliced trees are written like the trees, with commas between them. -/
theorem text_spliceAll {es : List Expr} (hne : ∀ e ∈ es, e.items ≠ [])
    (htext : ∀ e ∈ es, ", ".intercalate (texts e.items) = e.text) :
    ", ".intercalate (texts (spliceAll es)) = ", ".intercalate (texts es) := by
  simp only [texts_eq_map] at htext ⊢
  exact intercalate_spliceAll hne htext

/-- A tree that is no argument is written like its only item. -/
theorem Composed.text_splice {e : Expr} (h : Composed false e)
    (htext : ", ".intercalate (texts e.items) = e.text) : e.splice.text = e.text := by
  rwa [h.items_eq, texts, texts, String.intercalate_singleton] at htext

/-- A list is written with the commas of the call around it. -/
theorem Composed.text_items {argument : Bool} {e : Expr} (h : Composed argument e) :
    ", ".intercalate (texts e.items) = e.text := by
  have hsingle : ∀ {p e : Expr}, p.text = e.text → ", ".intercalate (texts [p]) = e.text := by
    intro p e htext
    rwa [texts, texts, String.intercalate_singleton]
  induction h with
  | literal | mention => exact hsingle rfl
  | signed _ s o h ih =>
    refine hsingle ?_
    rw [splice, text, text, precedence_splice, h.text_splice ih]
  | binary _ s o hl hr ihl ihr =>
    refine hsingle ?_
    rw [splice, text, text, precedence_splice, precedence_splice, hl.text_splice ihl, hr.text_splice ihr]
  | conditional _ s hc hy hn ihc ihy ihn =>
    refine hsingle ?_
    rw [splice, text, text, precedence_splice, hc.text_splice ihc, hy.text_splice ihy, hn.text_splice ihn]
  | call _ s a _ h ih =>
    refine hsingle ?_
    rw [splice, text, text, text_spliceAll (fun e he => (h e he).items_ne_nil) ih]
  | list s _ h ih =>
    rw [items, text, text_spliceAll (fun e he => (h e he).items_ne_nil) ih]

/-! ## Reading back -/

/-- A negative number is read back as a minus sign and the number negated. -/
theorem reading_negative {x : Float} (hneg : Number.isNegative x = true) (hfinite : x.isInf = false)
    (s : Span) : (literal s x).reading = signed .none .minus (literal .none (-x)) := by
  rw [reading, Number.reading, if_pos (by simp [hneg, hfinite]), Number.magnitude_eq_neg hneg]

/-- Any other number is read back as it is. -/
theorem reading_other {x : Float} (h : Number.isNegative x = false ∨ x.isInf = true) (s : Span) :
    (literal s x).reading = literal .none x := by
  rw [reading, Number.reading, if_neg]
  rcases h with h | h <;> simp [h]

/-- A tree without lists is read back, if no sign in it makes an infinity of a name. -/
theorem Written.ofText_text {e : Expr} (h : e.Written False) (hno : e.signsInfinity = false) :
    ∃ d, Expr.ofText e.text = .ok d ∧ d.bare = e.reading := by
  have hlexes := h.writes_text.lexes (.inl rfl)
  rw [List.append_nil] at hlexes
  have hderives : Derives conditionalPrecedence e.tokens e.reading :=
    (h.derives hno).weaken (Nat.le_min.mpr ⟨one_le_precedence e, by decide⟩)
  rw [← hderives.bare] at hderives
  obtain ⟨d, c, hok, hbare⟩ := complete_expression_iff.mpr ⟨_, hlexes, hderives⟩
  refine ⟨d, readText_ok_iff.mpr ⟨firstStray?_of_lexes hlexes, c, hok⟩, ?_⟩
  rw [hbare, ((h.derives hno).bare)]

/-- Both trees have the same outcome, or both have a misuse of the same kind. -/
def SameMeaning (scope : Scope) (d e : Expr) : Prop :=
  (∃ o, d.evaluate scope = .ok o ∧ e.evaluate scope = .ok o) ∨
    ∃ m m', d.evaluate scope = .error m ∧ e.evaluate scope = .error m' ∧ m.code = m'.code

/-- Trees mean the same if they have the same outcome or none. -/
theorem sameMeaning_of_outcome? {d e : Expr} (h : d.outcome? scope = e.outcome? scope) :
    SameMeaning scope d e := by
  rw [outcome?, outcome?] at h
  cases hd : d.evaluate scope with
  | ok o =>
    rw [hd] at h
    exact .inl ⟨o, hd, eq_ok_of_toOption h.symm⟩
  | error m =>
    rw [hd] at h
    cases he : e.evaluate scope with
    | ok o =>
      rw [he] at h
      cases h
    | error m' =>
      exact .inr ⟨m, m', hd, he, (code_of_evaluate hd).trans (code_of_evaluate he).symm⟩

/-- **The text of a composed tree means what the tree means.** It is read as the tree with its lists
spliced in and its negative numbers as signs and magnitudes, and in every scope both have the same
outcome. -/
theorem ofText_text_composed {e : Expr} (h : Composed false e) (hno : e.signsInfinity = false) :
    ∃ d, Expr.ofText e.text = .ok d ∧ d.bare = e.splice.reading
      ∧ ∀ scope, SameMeaning scope d e := by
  have hwritten : e.splice.Written False := h.of_items h.written_items
  obtain ⟨d, hd, hbare⟩ := hwritten.ofText_text ((signsInfinity_splice e).trans hno)
  rw [h.text_splice h.text_items] at hd
  refine ⟨d, hd, hbare, fun scope => sameMeaning_of_outcome? ?_⟩
  calc d.outcome? scope = d.bare.outcome? scope := (outcome?_bare d).symm
    _ = e.splice.outcome? scope := by rw [hbare, outcome?_reading]
    _ = e.outcome? scope := outcome?_splice e

/-- Nested lists with a negative number, and a negative zero behind a sign. -/
theorem ofText_text_composed_lists :
    ∃ d, Expr.ofText "MAX(-1.5, 2, w\x7bm:\"*\"\x7d) * --0" = .ok d
      ∧ d.bare = .binary .none
        (.call .none .maximum [.signed .none .minus (.literal .none 1.5), .literal .none 2.0,
          .mention .none ⟨none, "w", [⟨"m", "*"⟩]⟩])
        .multiply (.signed .none .minus (.signed .none .minus (.literal .none 0.0)))
      ∧ ∀ scope, SameMeaning scope d (.binary .none
        (.call .none .maximum [.list .none [.literal .none (-1.5), .list .none [.literal .none 2.0]],
          .mention .none ⟨none, "w", [⟨"m", "*"⟩]⟩])
        .multiply (.signed .none .minus (.literal .none (-0.0)))) := by
  have hw : (⟨none, "w", [⟨"m", "*"⟩]⟩ : Mention).IsSpelled := by
    refine ⟨fun c hc => (nomatch hc), ⟨'w', [], rfl, by decide, by simp⟩, ?_⟩
    rw [List.forall_mem_singleton]
    exact ⟨⟨'m', [], rfl, by decide, by simp⟩, .inl rfl⟩
  have hcomposed : Composed false (.binary .none
      (.call .none .maximum [.list .none [.literal .none (-1.5), .list .none [.literal .none 2.0]],
        .mention .none ⟨none, "w", [⟨"m", "*"⟩]⟩])
      .multiply (.signed .none .minus (.literal .none (-0.0)))) := by
    have hinner : Composed true (.list .none [.literal .none 2.0]) :=
      .list _ (by simp) (List.forall_mem_singleton.mpr (.literal _ _ _))
    have hlist : Composed true
        (.list .none [.literal .none (-1.5), .list .none [.literal .none 2.0]]) :=
      .list _ (by simp) (by simpa using ⟨.literal _ _ _, hinner⟩)
    refine .binary _ _ _ (.call _ _ _ (by simp) ?_) (.signed _ _ _ (.literal _ _ _))
    simpa using ⟨hlist, .mention _ _ hw (by decide)⟩
  obtain ⟨d, hd, hbare, hmeaning⟩ := ofText_text_composed hcomposed rfl
  refine ⟨d, ?_, ?_, hmeaning⟩
  · rw [← hd]
    congr 1
  · rw [hbare]
    rfl

end Expr

end DerivedStats
