import DerivedStats.Syntax.Expr

/-!
# Mentions in a tree

The places of an expression that mention a statistic, from left to right (`Expr.sites`), and the
replacement of mentions one by one (`Expr.replaceMentions`). The replacement is steered by a
visitor with a state of its own, which may stop the work; what was replaced up to then stays
replaced. Replacements are not visited again.
-/

namespace DerivedStats

/-- A mention in a tree, with its span and whether some aggregate encloses it. -/
structure Site where
  mention : Mention
  span : Span
  insideAggregate : Bool
deriving DecidableEq, Inhabited

namespace Expr

mutual

/-- The sites of an expression from left to right; `inside` tells whether an aggregate encloses the
whole. -/
def sites (inside : Bool) : Expr → List Site
  | literal _ _ => []
  | mention span m => [⟨m, span, inside⟩]
  | signed _ _ e => e.sites inside
  | binary _ l _ r => l.sites inside ++ r.sites inside
  | conditional _ c y n => c.sites inside ++ y.sites inside ++ n.sites inside
  | call _ _ es => sitesOfAll true es
  | list _ es => sitesOfAll inside es

/-- The sites of several expressions, one after the other. -/
def sitesOfAll (inside : Bool) : List Expr → List Site
  | [] => []
  | e :: es => e.sites inside ++ sitesOfAll inside es

end

theorem sitesOfAll_eq_flatMap (inside : Bool) (es : List Expr) :
    sitesOfAll inside es = es.flatMap (sites inside) := by
  induction es with
  | nil => simp [sitesOfAll]
  | cons e es ih => simp [sitesOfAll, ih]

end Expr

/-- The sites of a definition: the target, then those of the body. -/
def Assignment.sites (a : Assignment) : List Site :=
  ⟨a.target, a.targetSpan, false⟩ :: a.body.sites false

/-- What is left after mentions were replaced: the tree, the state of the visitor, and the failure
if the visitor stopped. -/
structure Replaced (σ ε α : Type) where
  tree : α
  state : σ
  failure : Option ε

namespace Replaced

variable {σ ε α β : Type}

/-- The same with another tree. -/
def map (f : α → β) (r : Replaced σ ε α) : Replaced σ ε β := ⟨f r.tree, r.state, r.failure⟩

/-- Goes on with the part of a tree that comes next, unless the visitor stopped; then that part
stays. -/
def andThen (r : Replaced σ ε α) (later : β) (next : σ → Replaced σ ε β) :
    Replaced σ ε (α × β) :=
  match r.failure with
  | some _ => ⟨(r.tree, later), r.state, r.failure⟩
  | none => (next r.state).map (r.tree, ·)

end Replaced

/-- What decides about a mention: the new state, and a failure, a replacement, or nothing to be
done. Of a replacement the span is not used. -/
abbrev Visitor (σ ε : Type) := σ → Site → σ × Except ε (Option Expr)

namespace Expr

variable {σ ε : Type}

mutual

/-- Offers each mention to the visitor, from left to right, and replaces it as the visitor says; the
replacement takes the span of the mention. -/
def replaceMentions (visit : Visitor σ ε) (inside : Bool) (state : σ) : Expr → Replaced σ ε Expr
  | literal span v => ⟨literal span v, state, none⟩
  | mention span m =>
    match visit state ⟨m, span, inside⟩ with
    | (state, .error failure) => ⟨mention span m, state, some failure⟩
    | (state, .ok none) => ⟨mention span m, state, none⟩
    | (state, .ok (some e)) => ⟨e.withSpan span, state, none⟩
  | signed span sign e => (e.replaceMentions visit inside state).map (signed span sign)
  | binary span l o r =>
    ((l.replaceMentions visit inside state).andThen r fun state =>
      r.replaceMentions visit inside state).map fun (l, r) => binary span l o r
  | conditional span c y n =>
    ((c.replaceMentions visit inside state).andThen (y, n) fun state =>
      (y.replaceMentions visit inside state).andThen n fun state =>
        n.replaceMentions visit inside state).map fun (c, y, n) => conditional span c y n
  | call span a es => (replaceMentionsIn visit true state es).map (call span a)
  | list span es => (replaceMentionsIn visit inside state es).map (list span)

/-- Replaces mentions in several expressions, one after the other. -/
def replaceMentionsIn (visit : Visitor σ ε) (inside : Bool) (state : σ) :
    List Expr → Replaced σ ε (List Expr)
  | [] => ⟨[], state, none⟩
  | e :: es =>
    ((e.replaceMentions visit inside state).andThen es fun state =>
      replaceMentionsIn visit inside state es).map fun (e, es) => e :: es

end

end Expr

end DerivedStats
