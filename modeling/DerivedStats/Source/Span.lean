/-!
# Spans

A half-open range of byte offsets in a source text, kept with every node of a syntax tree.
-/

namespace DerivedStats

/-- The bytes from `start` up to, but not including, `stop`. -/
structure Span where
  start : Nat
  stop : Nat
deriving DecidableEq, Inhabited

namespace Span

/-- The span from the lesser start to the greater stop: both spans and what lies between them. -/
def cover (a b : Span) : Span := ⟨min a.start b.start, max a.stop b.stop⟩

/-- The number of bytes; none if the ends are in the wrong order. -/
def length (s : Span) : Nat := s.stop - s.start

/-- The two offsets with two dots between them. -/
def text (s : Span) : String := toString s.start ++ ".." ++ toString s.stop

end Span

end DerivedStats
