import DerivedStats.Grammar.Lexeme
import DerivedStats.Syntax.Expr

/-!
# Phrases

The grammar of expressions, one parser for each level of precedence. Phrases that hold whole
expressions, in parentheses, as arguments or as branches of a conditional, take the parser for
those as the parameter `nested`. The knot is tied in `expressionWithin`: whatever calls `nested`
has read at least one character before, so the number of characters left bounds the depth.
-/

namespace DerivedStats.Grammar

open DerivedStats.Grammar.Parser

/-! ## Mentions -/

/-- `[category.]name`, without spacing around the point. -/
def qualifiedName : Parser (Option String × String) := do
  let first ← identifier
  match ← optional (do character '.'; identifier) with
  | some name => return (some first, name)
  | none => return (none, first)

/-- `key:"value"`. -/
def dimension : Parser Dimension :=
  labelled .dimension do
    let key ← expecting .dimensionKey identifier
    spacing
    expectedCharacter ':'
    spacing
    expectedCharacter '"'
    let value ← expecting .dimensionValue dimensionValue
    expectedCharacter '"'
    return ⟨key, value⟩

/-- Dimensions between braces. -/
def dimensionClause : Parser (List Dimension) := do
  character '\x7b'
  let dimensions ← committed (commaSeparated (do spacing; dimension))
  committed (do spacing; expectedCharacter '\x7d')
  return dimensions

/-- A statistic with its span. -/
def mention : Parser (Mention × Span) :=
  labelled .mention do
    let start ← offset
    let (category, name) ← qualifiedName
    let dimensions ← optional (do spacing; dimensionClause)
    let stop ← offset
    return (⟨category, name, dimensions.getD []⟩, ⟨start, stop⟩)

/-! ## Expressions -/

/-- A phrase that becomes a node with the span of the phrase. -/
def spanned (p : Parser (Span → Expr)) : Parser Expr := do
  let start ← offset
  let node ← p
  let stop ← offset
  return node ⟨start, stop⟩

/-- An expression in parentheses; the node takes the span of the parentheses. -/
def parenthesized (nested : Parser Expr) : Parser Expr :=
  spanned do
    character '('
    committed do
      let inner ← nested
      spacing
      expectedCharacter ')'
      return fun span => inner.withSpan span

/-- The arguments of an aggregate. -/
def arguments (nested : Parser Expr) : Parser (List Expr) :=
  labelled .arguments (commaSeparated nested)

/-- The call of an aggregate. -/
def call (nested : Parser Expr) : Parser Expr :=
  labelled .call <| spanned do
    let aggregate ← aggregateName
    spacing
    character '('
    committed do
      let es ← arguments nested
      spacing
      expectedCharacter ')'
      return fun span => .call span aggregate es

/-- A phrase without operators. -/
def primary (nested : Parser Expr) : Parser Expr :=
  expecting .operand <| labelled .primary <|
    spanned (do keyword "NaN"; return fun span => .literal span Number.nan)
      <|> spanned (do let x ← number; return fun span => .literal span x)
      <|> parenthesized nested
      <|> call nested
      <|> (do let (m, span) ← mention; return .mention span m)

/-- An operand with the signs in front of it; the innermost sign is the last one. -/
def applySigns (signs : List (Sign × Nat)) (operand : Expr) : Expr :=
  signs.foldr (fun (s, at_) e => .signed ((⟨at_, at_ + 1⟩ : Span).cover e.span) s e) operand

/-- An operand with signs in front of it. -/
def signed (nested : Parser Expr) : Parser Expr := do
  let signs ← signs
  let operand ←
    spanned (do let x ← signedInfinity; return fun span => .literal span x) <|> primary nested
  return applySigns signs operand

/-- Operators of one level with their right operands, joined to `left` from left to right; at most
`budget` of them. -/
def chainFrom (operand : Parser Expr) (operators : List Operator) : Nat → Expr → Parser Expr
  | 0, left => pure left
  | budget + 1, left => do
    spacing
    match ← operatorOf operators with
    | none => pure left
    | some o => do
      let right ← operand
      chainFrom operand operators budget (.binary (left.span.cover right.span) left o right)

/-- Operands with operators of one level between them, leaning to the left. As every operator takes
a character, the characters left are budget enough, and one step more to skip the spacing at the
end. -/
def chain (operand : Parser Expr) (operators : List Operator) : Parser Expr := do
  let first ← operand
  let budget ← remaining
  chainFrom operand operators (budget + 1) first

/-- Products and quotients. -/
def product (nested : Parser Expr) : Parser Expr := chain (signed nested) [.multiply, .divide]

/-- Sums and differences. -/
def sum (nested : Parser Expr) : Parser Expr := chain (product nested) [.add, .subtract]

/-- Comparisons by order; the operators of two characters come first. -/
def relation (nested : Parser Expr) : Parser Expr :=
  chain (sum nested) [.greaterOrEqual, .lessOrEqual, .greater, .less]

/-- Comparisons by equality. -/
def equality (nested : Parser Expr) : Parser Expr := chain (relation nested) [.equal, .notEqual]

/-- Conjunctions. -/
def conjunction (nested : Parser Expr) : Parser Expr := chain (equality nested) [.and]

/-- Disjunctions. -/
def disjunction (nested : Parser Expr) : Parser Expr := chain (conjunction nested) [.or]

/-- A disjunction, or a conditional whose branches are expressions. -/
def conditional (nested : Parser Expr) : Parser Expr := do
  let condition ← disjunction nested
  spacing
  match ← optional (character '?') with
  | none => return condition
  | some () =>
    labelled .conditional <| committed do
      let yes ← nested
      spacing
      expectedCharacter ':'
      let no ← nested
      return .conditional (condition.span.cover no.span) condition yes no

/-- Expressions that hold expressions less than `depth` levels deep. -/
def expressionWithin : Nat → Parser Expr
  | 0 => fail
  | depth + 1 => labelled .expression (conditional (expressionWithin depth))

/-- An expression. -/
def expression : Parser Expr := fun c => expressionWithin (c.rest.length + 1) c

/-! ## Whole texts -/

/-- A phrase and then nothing but spacing. -/
def complete {α : Type} (p : Parser α) : Parser α := do
  let a ← p
  spacing
  expecting .endOfInput endOfText
  return a

/-- The text of a definition. -/
def assignment : Parser Assignment :=
  labelled .assignment <| complete do
    spacing
    let (target, span) ← mention
    spacing
    expectedCharacter '='
    let body ← expression
    return ⟨target, span, body⟩

/-- The text of a single mention. -/
def soleMention : Parser (Mention × Span) := do
  spacing
  complete mention

end DerivedStats.Grammar
