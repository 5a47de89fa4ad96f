/-!
# Spans

A span is the byte range of a piece of source text. Everything that a corpus declares carries one,
so that a problem can point back at the text it is about.
-/

namespace MibCorpus

/-- A byte range: `start` lies inside it and `stop` does not. -/
structure Span where
  start : Nat
  stop : Nat
  deriving DecidableEq, Ord, Inhabited

namespace Span

/-- The span of what no text declares. -/
def synthetic : Span := ⟨0, 0⟩

/-- The number of bytes in the range. -/
def length (s : Span) : Nat := s.stop - s.start

/-- A range is empty when it ends where it starts. -/
def isEmpty (s : Span) : Bool := s.start == s.stop

/-- The two ends with two dots between them. -/
protected def toString (s : Span) : String :=
  toString s.start ++ ".." ++ toString s.stop

instance : ToString Span := ⟨Span.toString⟩

end Span

end MibCorpus
