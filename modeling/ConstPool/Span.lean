/-!
# Places in a source text

A `Span` is a stretch of a source text. The span whose start lies on line zero stands for an
unknown place, since lines are counted from one.
-/

namespace ConstPool

/-- A place in a source text: line and column from one, and the offset in bytes. -/
structure Position where
  line : Nat := 0
  column : Nat := 0
  offset : Nat := 0
  deriving DecidableEq, Repr

/-- A position as it is shown. -/
def Position.text (p : Position) : String := toString p.line ++ ":" ++ toString p.column

/-- A stretch of a source text, from `start` up to and without `stop`. -/
structure Span where
  start : Position := {}
  stop : Position := {}
  deriving DecidableEq, Repr

namespace Span

/-- A stretch within one line. -/
def onLine (line startColumn stopColumn : Nat) : Span :=
  ⟨⟨line, startColumn, 0⟩, ⟨line, stopColumn, 0⟩⟩

/-- Whether the stretch stands for an unknown place: lines are counted from one. -/
def isUnknown (s : Span) : Bool := s.start.line == 0

/-- The number of bytes of the stretch; none if it ends before it starts. -/
def length (s : Span) : Nat := s.stop.offset - s.start.offset

/-- Whether the stretch starts and ends at the same byte. -/
def isEmpty (s : Span) : Bool := s.start.offset == s.stop.offset

/-- A stretch as it is shown: by its start, if that is known. -/
def text (s : Span) : String := if s.isUnknown then "<unknown>" else s.start.text

end Span

end ConstPool
