/-!
# Spans

Where something stands in a program text: one line and a range of columns.
-/

namespace TapePuzzle

/-- A range of columns on one line. Lines and columns count from one, and columns count bytes. -/
structure Span where
  line : Nat
  startColumn : Nat
  endColumn : Nat
  deriving DecidableEq, Repr

namespace Span

/-- The empty span at one position. -/
def point (line column : Nat) : Span := ⟨line, column, column⟩

/-- On one line, the smallest span around both. A span never leaves its line, so of two spans on
    different lines the upper one stands for both. -/
def merge (a b : Span) : Span :=
  if a.line = b.line then ⟨a.line, min a.startColumn b.startColumn, max a.endColumn b.endColumn⟩
  else if a.line < b.line then a
  else b

/-- The position a span starts at, as `line:column`. -/
def position (s : Span) : String := s!"{s.line}:{s.startColumn}"

end Span

end TapePuzzle
