import DerivedStats.Syntax.Render
import DerivedStats.Statistic.Table

/-!
# Journal

What the library notes about its work: one event for each node that is made ready for evaluation,
for each finished formula, and for samples that are expanded or put in place of mentions.
-/

namespace DerivedStats

/-- How much detail an event is. -/
inductive Level where
  | debug
  | trace
deriving DecidableEq, Inhabited

/-- The level as it is shown. -/
def Level.text : Level → String
  | debug => "DEBUG"
  | trace => "TRACE"

/-- The kind of a node as events name it. -/
def Expr.kind : Expr → String
  | literal _ _ => "literal"
  | mention _ _ => "reference"
  | signed _ _ _ => "unary"
  | binary _ _ _ _ => "binary"
  | conditional _ _ _ _ => "ternary"
  | call _ _ _ => "aggregate"
  | list _ _ => "list"

/-- Something that was done. -/
inductive Event where
  /-- A node was made ready for evaluation. -/
  | compiling (kind : String) (span : Span)
  /-- The statistics that a formula reads were found. -/
  | dependencies (derived : Statistic) (count : Nat)
  /-- A formula was finished. -/
  | compiled (source : String) (derived : Statistic) (count : Nat)
  /-- Sample lists were turned into single values. -/
  | expanded (lists values : Nat)
  /-- Values are put in place of a mention. -/
  | substituting (count : Nat) (statistic : Statistic)
deriving DecidableEq, Inhabited

namespace Event

/-- How much detail the event is. -/
def level : Event → Level
  | compiling _ _ | expanded _ _ | substituting _ _ => .trace
  | dependencies _ _ | compiled _ _ _ => .debug

/-- What the event says. -/
def text : Event → String
  | compiling kind span => "compiling " ++ kind ++ " at " ++ span.text
  | dependencies derived n =>
    derived.text ++ " depends on " ++ toString n ++ " distinct statistics"
  | compiled source derived n =>
    "compiled `" ++ source ++ "` defining " ++ derived.text ++ " from " ++ toString n
      ++ " statistics"
  | expanded lists values =>
    "expanded " ++ toString lists ++ " sample lists into " ++ toString values ++ " values"
  | substituting n s => "substituting " ++ toString n ++ " value(s) for " ++ s.text

/-- The event with its level in front. -/
def line (e : Event) : String := e.level.text ++ " " ++ e.text

end Event

namespace Expr

mutual

/-- The events of making an expression ready: each node before what it holds, from left to right. -/
def compilingEvents : Expr → List Event
  | literal s x => [.compiling (literal s x).kind s]
  | mention s m => [.compiling (mention s m).kind s]
  | signed s o e => .compiling (signed s o e).kind s :: e.compilingEvents
  | binary s l o r =>
    .compiling (binary s l o r).kind s :: (l.compilingEvents ++ r.compilingEvents)
  | conditional s c y n =>
    .compiling (conditional s c y n).kind s
      :: (c.compilingEvents ++ y.compilingEvents ++ n.compilingEvents)
  | call s a es => .compiling (call s a es).kind s :: compilingEventsOfAll es
  | list s es => .compiling (list s es).kind s :: compilingEventsOfAll es

/-- The events of several expressions, one after the other. -/
def compilingEventsOfAll : List Expr → List Event
  | [] => []
  | e :: es => e.compilingEvents ++ compilingEventsOfAll es

end

end Expr

end DerivedStats
