import DerivedStats.Proofs.Grammar.Token
import DerivedStats.Syntax.Expr

/-!
# Derivations

The grammar as a relation between lists of tokens and trees: `Derives k ts e` says that the tokens
form an expression that binds at least as strongly as `k`, with the tree `e`. The levels are the
strengths of the operators; one constructor for each production, and one to use a phrase where a
weaker one would do.

The tokens know nothing of places, so the trees here are bare: all their spans are the same
(`Expr.bare`). Two trees are the same up to spans if their bare trees are.
-/

namespace DerivedStats

/-- The span of all nodes of a bare tree. -/
def Span.none : Span := ⟨0, 0⟩

namespace Expr

mutual

/-- The tree without its spans. -/
def bare : Expr → Expr
  | literal _ v => literal .none v
  | mention _ m => mention .none m
  | signed _ s e => signed .none s e.bare
  | binary _ l o r => binary .none l.bare o r.bare
  | conditional _ c y n => conditional .none c.bare y.bare n.bare
  | call _ a es => call .none a (baresOf es)
  | list _ es => list .none (baresOf es)

/-- The trees without their spans. -/
def baresOf : List Expr → List Expr
  | [] => []
  | e :: es => e.bare :: baresOf es

end

theorem baresOf_eq_map (es : List Expr) : baresOf es = es.map bare := by
  induction es with
  | nil => simp [baresOf]
  | cons e es ih => simp [baresOf, ih]

/-- What holds of a tree whenever it holds of its parts, holds of every tree. -/
@[elab_as_elim]
theorem induction_parts {motive : Expr → Prop} (e : Expr)
    (literal : ∀ s v, motive (.literal s v))
    (mention : ∀ s m, motive (.mention s m))
    (signed : ∀ s o e, motive e → motive (.signed s o e))
    (binary : ∀ s l o r, motive l → motive r → motive (.binary s l o r))
    (conditional : ∀ s c y n, motive c → motive y → motive n → motive (.conditional s c y n))
    (call : ∀ s a es, (∀ e ∈ es, motive e) → motive (.call s a es))
    (list : ∀ s es, (∀ e ∈ es, motive e) → motive (.list s es)) : motive e :=
  @Expr.rec motive (fun es => ∀ e ∈ es, motive e) literal mention signed binary conditional call list
    (by simp) (fun e es he hes => by simpa using ⟨he, hes⟩) e

@[simp] theorem bare_withSpan (s : Span) (e : Expr) : (e.withSpan s).bare = e.bare := by
  cases e <;> simp [withSpan, bare]

end Expr

/-- The definition without its spans. -/
def Assignment.bare (a : Assignment) : Assignment := ⟨a.target, .none, a.body.bare⟩

/-- The value that the words for an infinity stand for. -/
def Sign.infinity : Sign → Float
  | plus => Number.infinity
  | minus => Number.negativeInfinity

/-- The first name of a mention: its category if it has one. -/
def Mention.firstName (m : Mention) : String := m.category.getD m.name

open Grammar in
/-- The tokens of a dimension. -/
def Dimension.tokens (d : Dimension) : List Token := [.name none d.key, .colon, .quoted d.value]

open Grammar in
/-- The tokens of a mention. -/
def Mention.tokens (m : Mention) : List Token :=
  .name m.category m.name ::
    if m.dimensions = [] then []
    else
      .openBrace :: (List.intercalate [.comma] (m.dimensions.map Dimension.tokens) ++ [.closeBrace])

namespace Grammar

/-- The items of a list with commas behind the first one have a comma in front of each. -/
theorem intercalate_cons (s x : List Token) (xs : List (List Token)) :
    List.intercalate s (x :: xs) = x ++ xs.flatMap (s ++ ·) := by
  induction xs generalizing x with
  | nil => simp [List.intercalate]
  | cons y ys ih => rw [List.intercalate_cons_cons, ih]; simp

/-- What stands in a list with separators stands in an item, or it is the separator. -/
theorem of_mem_intercalate {s t : Token} {ls : List (List Token)} (h : t ∈ List.intercalate [s] ls) :
    t = s ∨ ∃ l ∈ ls, t ∈ l := by
  cases ls with
  | nil => exact absurd h List.not_mem_nil
  | cons l ls =>
    rw [intercalate_cons, List.mem_append, List.mem_flatMap] at h
    rcases h with h | ⟨l', hl', h⟩
    · exact .inr ⟨l, by simp, h⟩
    · rcases List.mem_cons.mp h with rfl | h
      · exact .inl rfl
      · exact .inr ⟨l', by simp [hl'], h⟩

end Grammar

open Grammar in
/-- The kinds of tokens in a mention. -/
theorem Mention.mem_tokens {m : Mention} {t : Token} (h : t ∈ m.tokens) :
    (∃ k n, t = .name k n) ∨ (∃ v, t = .quoted v) ∨ t ∈ [.openBrace, .colon, .comma, .closeBrace] := by
  have hdimension : ∀ {d : Dimension}, t ∈ d.tokens →
      (∃ k n, t = .name k n) ∨ (∃ v, t = .quoted v) ∨ t = .colon := by
    intro d hd
    simp only [Dimension.tokens, List.mem_cons, List.not_mem_nil, or_false] at hd
    rcases hd with rfl | rfl | rfl
    · exact .inl ⟨_, _, rfl⟩
    · exact .inr (.inr rfl)
    · exact .inr (.inl ⟨_, rfl⟩)
  rw [Mention.tokens] at h
  rcases List.mem_cons.mp h with rfl | h
  · exact .inl ⟨_, _, rfl⟩
  split at h
  · exact nomatch h
  · simp only [List.mem_cons, List.mem_append, List.not_mem_nil, or_false] at h
    rcases h with rfl | h | rfl
    · exact .inr (.inr (by simp))
    · rcases of_mem_intercalate h with rfl | ⟨l, hl, ht⟩
      · exact .inr (.inr (by simp))
      · obtain ⟨d, -, rfl⟩ := List.mem_map.mp hl
        rcases hdimension ht with h | h | rfl
        · exact .inl h
        · exact .inr (.inl h)
        · exact .inr (.inr (by simp))
    · exact .inr (.inr (by simp))

namespace Grammar

/-- The tokens form an expression that binds at least as strongly as the level says, and this is its
bare tree. -/
inductive Derives : Nat → List Token → Expr → Prop where
  /-- A phrase that binds more strongly. -/
  | weaker {k : Nat} {ts : List Token} {e : Expr} (h : Derives (k + 1) ts e) : Derives k ts e
  /-- `condition ? yes : no`, with any expressions as branches. -/
  | conditional {cs ys ns : List Token} {c y n : Expr} (hc : Derives 2 cs c) (hy : Derives 1 ys y)
      (hn : Derives 1 ns n) :
      Derives 1 (cs ++ .question :: (ys ++ .colon :: ns)) (.conditional .none c y n)
  /-- Two operands; the operators of one level lean to the left. -/
  | binary {ls rs : List Token} {l r : Expr} (o : Operator) (hl : Derives o.precedence ls l)
      (hr : Derives (o.precedence + 1) rs r) :
      Derives o.precedence (ls ++ .operator o :: rs) (.binary .none l o r)
  /-- A sign and its operand. -/
  | signed {ts : List Token} {e : Expr} (s : Sign) (h : Derives 8 ts e) :
      Derives 8 (.ofSign s :: ts) (.signed .none s e)
  | infinity (s : Sign) : Derives 8 [.infinity s] (.literal .none s.infinity)
  | number (x : Float) : Derives 9 [.number x] (.literal .none x)
  | nan : Derives 9 [.name none "NaN"] (.literal .none Number.nan)
  /-- An expression in parentheses. -/
  | group {ts : List Token} {e : Expr} (h : Derives 1 ts e) :
      Derives 9 (.openParen :: (ts ++ [.closeParen])) e
  /-- The call of an aggregate over at least one argument. -/
  | call (a : Aggregate) {arguments : List (List Token × Expr)} (hne : arguments ≠ [])
      (h : ∀ p ∈ arguments, Derives 1 p.1 p.2) :
      Derives 9 (.name none a.name :: .openParen ::
          (List.intercalate [.comma] (arguments.map (·.1)) ++ [.closeParen]))
        (.call .none a (arguments.map (·.2)))
  /-- A statistic, unless its first name is that of the constant. -/
  | mention (m : Mention) (h : m.firstName ≠ "NaN") : Derives 9 m.tokens (.mention .none m)

/-- A phrase can stand wherever a weaker one would do. -/
theorem Derives.weaken {j k : Nat} {ts : List Token} {e : Expr} (h : Derives k ts e)
    (hle : j ≤ k) : Derives j ts e := by
  induction hle with
  | refl => exact h
  | step _ ih => exact ih (.weaker h)

/-- The trees of derivations are bare. -/
theorem Derives.bare {k : Nat} {ts : List Token} {e : Expr} (h : Derives k ts e) :
    e.bare = e := by
  induction h with
  | weaker _ ih => exact ih
  | group _ ih => exact ih
  | conditional _ _ _ hc hy hn => simp [Expr.bare, hc, hy, hn]
  | binary o _ _ hl hr => simp [Expr.bare, hl, hr]
  | signed s _ ih => simp [Expr.bare, ih]
  | infinity | number | nan | mention => rfl
  | @call a arguments _ _ ih =>
    rw [Expr.bare, Expr.baresOf_eq_map, List.map_map]
    exact congrArg _ (List.map_congr_left ih)

/-- The tokens form the definition of a derived statistic. -/
def DerivesAssignment (ts : List Token) (a : Assignment) : Prop :=
  ∃ us, Derives conditionalPrecedence us a.body ∧ ts = a.target.tokens ++ .equals :: us

end Grammar

end DerivedStats
