import DerivedStats.Syntax.Expr

/-!
# Trees written as text

The written form of a tree has parentheses only where the operand binds too weakly for its place.
The operators lean to the left, so a right operand of the same strength takes parentheses and a
left one does not; the condition of a conditional takes them if it is a conditional itself.
-/

namespace DerivedStats

/-- The dimension as it is written. -/
def Dimension.text (d : Dimension) : String := d.key ++ ":\"" ++ d.value ++ "\""

/-- The mention as it is written. -/
def Mention.text (m : Mention) : String :=
  (match m.category with
    | some category => category ++ "."
    | none => "")
  ++ m.name
  ++ (if m.dimensions.isEmpty then ""
      else "\x7b" ++ ",".intercalate (m.dimensions.map Dimension.text) ++ "\x7d")

namespace Expr

/-- A text, in parentheses if they are needed. -/
def parenthesize (needed : Bool) (s : String) : String :=
  if needed then "(" ++ s ++ ")" else s

mutual

/-- The expression as it is written. -/
def text : Expr → String
  | literal _ v => Number.text v
  | mention _ m => m.text
  | signed _ sign e => sign.symbol ++ parenthesize (e.precedence < signPrecedence) e.text
  | binary _ l o r =>
    parenthesize (l.precedence < o.precedence) l.text ++ " " ++ o.symbol ++ " "
      ++ parenthesize (r.precedence ≤ o.precedence) r.text
  | conditional _ c y n =>
    parenthesize (c.precedence ≤ conditionalPrecedence) c.text ++ " ? " ++ y.text ++ " : " ++ n.text
  | call _ a es => a.name ++ "(" ++ ", ".intercalate (texts es) ++ ")"
  | list _ es => ", ".intercalate (texts es)

/-- The expressions as they are written, one by one. -/
def texts : List Expr → List String
  | [] => []
  | e :: es => e.text :: texts es

end

theorem texts_eq_map (es : List Expr) : texts es = es.map text := by
  induction es with
  | nil => simp [texts]
  | cons e es ih => simp [texts, ih]

end Expr

/-- The definition as it is written. -/
def Assignment.text (a : Assignment) : String := a.target.text ++ " = " ++ a.body.text

end DerivedStats
