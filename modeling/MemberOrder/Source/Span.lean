/-
  Spans: half-open ranges of offsets in a text, with the lines they start and end on. Lines
  are separated by line feeds and counted from one.
-/
import MemberOrder.Text.Basic

namespace MemberOrder

/-- The offsets `start ≤ i < stop` of a text and the lines, counted from one, of the first
and the last character. -/
structure Span where
  start : Nat
  stop : Nat
  startLine : Nat
  endLine : Nat
  deriving Repr, DecidableEq, Inhabited

namespace Span

/-- The text that a span covers. -/
def text (s : Span) (t : Text) : String := t.cut s.start s.stop

/-- Whether a span covers another one. -/
def contains (a b : Span) : Bool := a.start ≤ b.start && b.stop ≤ a.stop

/-- Whether two spans have an offset in common. -/
def overlaps (a b : Span) : Bool := a.start < b.stop && b.start < a.stop

end Span

/-! ## Lines -/

/-- Where each line of a text starts. -/
structure Lines where
  starts : List Nat
  deriving Repr, DecidableEq, Inhabited

namespace Lines

/-- The offsets after the line feeds of `cs`, whose first character has the offset `i`. -/
def startsAfter : (cs : List Char) → (i : Nat) → List Nat
  | [], _ => []
  | c :: rest, i =>
    if c == '\n' then (i + 1) :: startsAfter rest (i + 1) else startsAfter rest (i + 1)

/-- The lines of a text. -/
def ofText (t : Text) : Lines := ⟨0 :: startsAfter t.toList 0⟩

/-- The number of lines. -/
def count (ls : Lines) : Nat := ls.starts.length

/-- The line that holds an offset. -/
def lineAt (ls : Lines) (offset : Nat) : Nat := ls.starts.countP (· ≤ offset)

/-- Where a line starts; a number outside the text counts as the nearest line. -/
def lineStart (ls : Lines) (line : Nat) : Nat :=
  ls.starts.getD (min (max line 1) ls.count - 1) 0

/-- The span of the offsets from `start` up to `stop`. -/
def span (ls : Lines) (start stop : Nat) : Span :=
  ⟨start, stop, ls.lineAt start, ls.lineAt (max start (stop - 1))⟩

end Lines

end MemberOrder
