import DerivedStats.Proofs.Grammar.Derivation
import DerivedStats.Proofs.Grammar.Located
import Mathlib.Data.List.Basic

/-!
# Derivations in their places

The grammar over located tokens. `Placed k ts e` says that the tokens form an expression of the level
with the tree `e`, and that every node of the tree has the span from the start of its first token to
the end of its last one (`extent`); of a phrase in parentheses this includes the parentheses. Without
the places it is `Derives` (`Placed.derives`).
-/

namespace DerivedStats.Grammar

/-! ## Tokens in order -/

/-- The spans of the tokens are not empty and stand one behind the other from `a` to `b`. -/
def Ordered : Nat → List (Token × Span) → Nat → Prop
  | a, [], b => a ≤ b
  | a, t :: ts, b => a ≤ t.2.start ∧ t.2.start < t.2.stop ∧ Ordered t.2.stop ts b

/-- Tokens are in order if two parts of them are, with a place between them. -/
theorem ordered_append {ts us : List (Token × Span)} {a b : Nat} :
    Ordered a (ts ++ us) b ↔ ∃ m, Ordered a ts m ∧ Ordered m us b := by
  induction ts generalizing a with
  | nil =>
    rw [List.nil_append]
    constructor
    · exact fun h => ⟨a, Nat.le_refl a, h⟩
    · rintro ⟨m, ham, h⟩
      cases us with
      | nil => exact Nat.le_trans ham h
      | cons u us => exact ⟨Nat.le_trans ham h.1, h.2⟩
  | cons t ts ih =>
    rw [List.cons_append, Ordered, ih]
    constructor
    · rintro ⟨h₁, h₂, m, h₃, h₄⟩
      exact ⟨m, ⟨h₁, h₂, h₃⟩, h₄⟩
    · rintro ⟨m, ⟨h₁, h₂, h₃⟩, h₄⟩
      exact ⟨h₁, h₂, m, h₃, h₄⟩

/-- The end of tokens in order is not in front of their start. -/
theorem Ordered.le {ts : List (Token × Span)} {a b : Nat} (h : Ordered a ts b) : a ≤ b := by
  induction ts generalizing a with
  | nil => exact h
  | cons t ts ih =>
    obtain ⟨h₁, h₂, h₃⟩ := h
    have := ih h₃
    omega

/-- Tokens of a text are in order. -/
theorem Located.ordered {c c' : Cursor} {ts : List (Token × Span)} (h : Located c ts c') :
    Ordered c.offset ts c'.offset := by
  have hgap : ∀ {c c' : Cursor}, Gap c c' → c.offset ≤ c'.offset := by
    rintro c c' ⟨w, hw, -⟩
    rw [hw.offset]
    exact Nat.le_add_right _ _
  induction h with
  | done gap => exact hgap gap
  | @token c m m' c' t w ts gap word next more ih =>
    refine ⟨hgap gap, ?_, ih⟩
    show m.offset < m'.offset
    obtain ⟨v, hspells, htext, -⟩ := next.starts
    obtain rfl : w = v := List.append_cancel_right (word.text.symm.trans htext)
    obtain ⟨x, xs, rfl, -⟩ := hspells.heads
    have := Char.utf8Size_pos x
    rw [word.offset, Text.byteLength_cons]
    omega

/-! ## What tokens take up -/

/-- From the start of the first token to the end of the last one. -/
def extent (ts : List (Token × Span)) : Span :=
  ⟨(ts.head?.map (·.2.start)).getD 0, (ts.getLast?.map (·.2.stop)).getD 0⟩

/-- Two pieces extend from the start of the first to the end of the second one. -/
theorem extent_append {ts us : List (Token × Span)} (hts : ts ≠ []) (hus : us ≠ []) :
    extent (ts ++ us) = ⟨(extent ts).start, (extent us).stop⟩ := by
  obtain ⟨t, ts, rfl⟩ := List.exists_cons_of_ne_nil hts
  rw [extent, List.getLast?_append_of_ne_nil _ hus]
  rfl

theorem extent_cons {t : Token × Span} {ts : List (Token × Span)} (hts : ts ≠ []) :
    extent (t :: ts) = ⟨t.2.start, (extent ts).stop⟩ :=
  extent_append (List.cons_ne_nil t []) hts

/-- A first and a last token bound the extent. -/
theorem extent_enclosed (t : Token × Span) (ts : List (Token × Span)) (u : Token × Span) :
    extent (t :: (ts ++ [u])) = ⟨t.2.start, u.2.stop⟩ := by
  rw [← List.cons_append, extent_append (List.cons_ne_nil t ts) (List.cons_ne_nil u [])]
  rfl

/-- Tokens in order take up a piece that is not empty, and they are in order within it. -/
theorem Ordered.extent {ts : List (Token × Span)} {a b : Nat} (h : Ordered a ts b) (hts : ts ≠ []) :
    a ≤ (extent ts).start ∧ (extent ts).start < (extent ts).stop ∧ (extent ts).stop ≤ b
      ∧ Ordered (extent ts).start ts (extent ts).stop := by
  induction ts generalizing a with
  | nil => exact absurd rfl hts
  | cons t ts ih =>
    obtain ⟨h₁, h₂, h₃⟩ := h
    by_cases hnil : ts = []
    · subst hnil
      exact ⟨h₁, h₂, h₃, Nat.le_refl _, h₂, Nat.le_refl _⟩
    · obtain ⟨i₁, i₂, i₃, i₄⟩ := ih h₃ hnil
      rw [extent_cons hnil]
      refine ⟨h₁, by simp only; omega, i₃, Nat.le_refl _, h₂, ?_⟩
      cases ts with
      | nil => exact absurd rfl hnil
      | cons u us => exact ⟨h₃.1, i₄.2⟩

/-- Two pieces in order are covered by the piece from the first to the second one. -/
theorem Ordered.cover {ts us vs : List (Token × Span)} {a b : Nat} (h : Ordered a (ts ++ (us ++ vs)) b)
    (hts : ts ≠ []) (hvs : vs ≠ []) :
    (Grammar.extent ts).cover (Grammar.extent vs) = Grammar.extent (ts ++ (us ++ vs)) := by
  obtain ⟨m, h₁, h₂⟩ := ordered_append.mp h
  obtain ⟨m', h₃, h₄⟩ := ordered_append.mp h₂
  obtain ⟨-, i₁, i₂, -⟩ := h₁.extent hts
  obtain ⟨j₁, j₂, -, -⟩ := h₄.extent hvs
  have hle := h₃.le
  have hlast : (Grammar.extent (us ++ vs)).stop = (Grammar.extent vs).stop := by
    rw [Grammar.extent, Grammar.extent, List.getLast?_append_of_ne_nil _ hvs]
  rw [extent_append hts (by simp [hvs]), hlast, Span.cover, Nat.min_eq_left (by omega),
    Nat.max_eq_right (by omega)]

/-! ## Phrases in a row -/

/-- A phrase of a row: the span of the separator in front of it, its tokens, and what it stands
for. -/
structure Part (α : Type) where
  separator : Span
  tokens : List (Token × Span)
  value : α

/-- The tokens of phrases behind a given token, with commas between them. -/
def row {α : Type} (t : Token) : List (Part α) → List (Token × Span)
  | [] => []
  | p :: ps => (t, p.separator) :: (p.tokens ++ row .comma ps)

variable {α : Type}

/-- The tokens of phrases that go on behind a comma. -/
theorem map_row_comma (ps : List (Part α)) :
    (row .comma ps).map (·.1) = (ps.map fun p => p.tokens.map (·.1)).flatMap ([.comma] ++ ·) := by
  induction ps with
  | nil => rfl
  | cons p ps ih =>
    rw [row, List.map_cons, List.map_append, ih, List.map_cons, List.flatMap_cons]
    simp

/-- The tokens of a row that starts behind a given token. -/
theorem map_row (t : Token) {ps : List (Part α)} (hne : ps ≠ []) :
    (row t ps).map (·.1) = t :: List.intercalate [.comma] (ps.map fun p => p.tokens.map (·.1)) := by
  obtain ⟨p, ps, rfl⟩ := List.exists_cons_of_ne_nil hne
  rw [row, List.map_cons, List.map_append, map_row_comma, List.map_cons, intercalate_cons]

/-! ## Expressions -/

/-- The tokens form an expression that binds at least as strongly as the level says, and this is its
tree. -/
inductive Placed : Nat → List (Token × Span) → Expr → Prop where
  | conditional {k : Nat} {cs ys ns ts : List (Token × Span)} {c y n : Expr} {s s' : Span}
      (hk : k ≤ 1) (hc : Placed 2 cs c) (hy : Placed 1 ys y) (hn : Placed 1 ns n)
      (hts : ts = cs ++ (.question, s) :: (ys ++ (.colon, s') :: ns)) :
      Placed k ts (.conditional (extent ts) c y n)
  | binary {k : Nat} {ls rs ts : List (Token × Span)} {l r : Expr} {s : Span} {o : Operator}
      (hk : k ≤ o.precedence) (hl : Placed o.precedence ls l) (hr : Placed (o.precedence + 1) rs r)
      (hts : ts = ls ++ (.operator o, s) :: rs) : Placed k ts (.binary (extent ts) l o r)
  | signed {k : Nat} {us ts : List (Token × Span)} {e : Expr} {at_ : Span} {s : Sign} (hk : k ≤ 8)
      (h : Placed 8 us e) (hts : ts = (.ofSign s, at_) :: us) : Placed k ts (.signed (extent ts) s e)
  | infinity {k : Nat} (hk : k ≤ 8) (s : Sign) (at_ : Span) :
      Placed k [(.infinity s, at_)] (.literal at_ s.infinity)
  | number {k : Nat} (hk : k ≤ 9) (x : Float) (at_ : Span) :
      Placed k [(.number x, at_)] (.literal at_ x)
  | nan {k : Nat} (hk : k ≤ 9) (at_ : Span) :
      Placed k [(.name none "NaN", at_)] (.literal at_ Number.nan)
  | group {k : Nat} {us ts : List (Token × Span)} {e : Expr} {s s' : Span} (hk : k ≤ 9)
      (h : Placed 1 us e) (hts : ts = (.openParen, s) :: (us ++ [(.closeParen, s')])) :
      Placed k ts (e.withSpan (extent ts))
  | call {k : Nat} {ps : List (Part Expr)} {ts : List (Token × Span)} {s s' : Span} {a : Aggregate}
      (hk : k ≤ 9) (hne : ps ≠ []) (h : ∀ p ∈ ps, Placed 1 p.tokens p.value)
      (hts : ts = (.name none a.name, s) :: (row .openParen ps ++ [(.closeParen, s')])) :
      Placed k ts (.call (extent ts) a (ps.map (·.value)))
  | mention {k : Nat} {ts : List (Token × Span)} {m : Mention} (hk : k ≤ 9)
      (hts : ts.map (·.1) = m.tokens) (hm : m.firstName ≠ "NaN") :
      Placed k ts (.mention (extent ts) m)

namespace Placed

variable {k : Nat} {ts : List (Token × Span)} {e : Expr}

/-- A phrase can stand wherever a weaker one would do. -/
theorem weaken {j : Nat} (h : Placed k ts e) (hle : j ≤ k) : Placed j ts e := by
  cases h with
  | conditional hk hc hy hn hts => exact .conditional (hle.trans hk) hc hy hn hts
  | binary hk hl hr hts => exact .binary (hle.trans hk) hl hr hts
  | signed hk h hts => exact .signed (hle.trans hk) h hts
  | infinity hk s at_ => exact .infinity (hle.trans hk) s at_
  | number hk x at_ => exact .number (hle.trans hk) x at_
  | nan hk at_ => exact .nan (hle.trans hk) at_
  | group hk h hts => exact .group (hle.trans hk) h hts
  | call hk hne h hts => exact .call (hle.trans hk) hne h hts
  | mention hk hts hm => exact .mention (hle.trans hk) hts hm

/-- A tree that is placed on tokens has their extent as its span. -/
theorem span_eq (h : Placed k ts e) : e.span = extent ts := by
  cases h with
  | group _ _ _ => exact Expr.span_withSpan _ _
  | _ => rfl

/-- Without the places, the tokens derive the tree. -/
theorem derives (h : Placed k ts e) : Derives k (ts.map (·.1)) e.bare := by
  induction h with
  | conditional hk _ _ _ hts hc hy hn =>
    rw [hts, Expr.bare]
    refine Derives.weaken ?_ hk
    simpa using Derives.conditional hc hy hn
  | @binary k ls rs ts l r s o hk _ _ hts hl hr =>
    rw [hts, Expr.bare]
    refine Derives.weaken ?_ hk
    simpa using Derives.binary o hl hr
  | signed hk _ hts ih =>
    rw [hts]
    exact .weaken (.signed _ ih) hk
  | infinity hk s => exact .weaken (.infinity s) hk
  | number hk x => exact .weaken (.number x) hk
  | nan hk => exact .weaken .nan hk
  | @group k us ts e s s' hk _ hts ih =>
    rw [hts, Expr.bare_withSpan]
    refine Derives.weaken ?_ hk
    simpa using Derives.group ih
  | @call k ps ts s s' a hk hne _ hts ih =>
    have hcall := @Derives.call a (ps.map fun p => (p.tokens.map (·.1), p.value.bare))
      (by simpa using hne)
      (by
        intro q hq
        obtain ⟨p, hp, rfl⟩ := List.mem_map.mp hq
        exact ih p hp)
    rw [hts, List.map_cons, List.map_append, map_row _ hne]
    refine Derives.weaken ?_ hk
    simpa [Expr.bare, Expr.baresOf_eq_map, List.map_map, Function.comp_def] using hcall
  | mention hk hts hm =>
    rw [hts]
    exact .weaken (.mention _ hm) hk

/-- A tree is placed on some tokens. -/
theorem ne_nil (h : Placed k ts e) : ts ≠ [] := by
  cases h with
  | conditional _ _ _ _ hts | binary _ _ _ hts | signed _ _ hts | group _ _ hts | call _ _ _ hts =>
    rw [hts]
    simp
  | infinity | number | nan => simp
  | mention _ hts _ =>
    rintro rfl
    exact absurd hts (by simp [Mention.tokens])

end Placed

/-- The tokens form the definition of a derived statistic, and this is its tree. -/
def PlacedAssignment (ts : List (Token × Span)) (a : Assignment) : Prop :=
  ∃ ls rs s, ts = ls ++ (.equals, s) :: rs ∧ ls.map (·.1) = a.target.tokens
    ∧ a.targetSpan = extent ls ∧ Placed 1 rs a.body

/-- Without the places, the tokens derive the definition. -/
theorem PlacedAssignment.derives {ts : List (Token × Span)} {a : Assignment}
    (h : PlacedAssignment ts a) : DerivesAssignment (ts.map (·.1)) a.bare := by
  obtain ⟨ls, rs, s, rfl, hls, -, hrs⟩ := h
  have hbody : Derives conditionalPrecedence (rs.map (·.1)) a.bare.body := hrs.derives
  refine ⟨_, hbody, ?_⟩
  rw [List.map_append, hls]
  rfl

end DerivedStats.Grammar
