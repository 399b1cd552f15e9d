import DerivedStats.Number
import DerivedStats.Source.Span
import DerivedStats.Syntax.Operator

/-!
# Syntax trees

The tree of an expression as it is read from a source text: every node holds the span that it was
read from. A mention is a statistic as it is written, before a default category is filled in. Lists
of values are never read from a text; substituting several values for a mention puts them there.
-/

namespace DerivedStats

/-- One `key:"value"` pair of a mention. -/
structure Dimension where
  key : String
  value : String
deriving DecidableEq, Inhabited

/-- A statistic as it is written, with its dimensions in the order of the text. -/
structure Mention where
  category : Option String
  name : String
  dimensions : List Dimension
deriving DecidableEq, Inhabited

/-- An expression, each node with its span in the source. -/
inductive Expr where
  /-- A number, one of the infinities, or `NaN`. -/
  | literal (span : Span) (value : Float)
  /-- A statistic. -/
  | mention (span : Span) (mention : Mention)
  /-- A sign and its operand. -/
  | signed (span : Span) (sign : Sign) (operand : Expr)
  /-- An operator between two operands. -/
  | binary (span : Span) (left : Expr) (operator : Operator) (right : Expr)
  /-- `condition ? yes : no`. -/
  | conditional (span : Span) (condition yes no : Expr)
  /-- The call of an aggregate. -/
  | call (span : Span) (aggregate : Aggregate) (arguments : List Expr)
  /-- Several values side by side. -/
  | list (span : Span) (elements : List Expr)
deriving Inhabited

namespace Expr

/-- The span of the whole expression. -/
def span : Expr → Span
  | literal s _ | mention s _ | signed s _ _ | binary s _ _ _ | conditional s _ _ _ | call s _ _
  | list s _ => s

/-- The same node with another span; the spans inside it stay. -/
def withSpan (s : Span) : Expr → Expr
  | literal _ v => literal s v
  | mention _ m => mention s m
  | signed _ o e => signed s o e
  | binary _ l o r => binary s l o r
  | conditional _ c y n => conditional s c y n
  | call _ a es => call s a es
  | list _ es => list s es

@[simp] theorem span_withSpan (s : Span) (e : Expr) : (e.withSpan s).span = s := by
  cases e <;> rfl

/-- How strongly the written form of an expression binds. A number with a minus sign binds like a
signed operand. -/
def precedence : Expr → Nat
  | literal _ v => if Number.isNegative v then signPrecedence else atomPrecedence
  | signed _ _ _ => signPrecedence
  | binary _ _ o _ => o.precedence
  | conditional _ _ _ _ => conditionalPrecedence
  | mention _ _ | call _ _ _ | list _ _ => atomPrecedence

end Expr

/-- The definition of a derived statistic: `target = body`. -/
structure Assignment where
  target : Mention
  targetSpan : Span
  body : Expr
deriving Inhabited

end DerivedStats
