/-
  Sets of code points written as ranges with a step. The character classes of this
  library are the ASCII part, spelt out, and such a table for the rest; the first of them is
  white space, the 29 code points that trimming, word splitting and the white space class of
  patterns agree on.
-/

namespace MemberOrder.Text

/-- The code points `lo, lo + step, …` up to `hi`. -/
structure CodeRange where
  lo : Nat
  hi : Nat
  step : Nat
  deriving Repr, DecidableEq

/-- Whether a code point belongs to the range. -/
def CodeRange.holds (r : CodeRange) (n : Nat) : Bool :=
  r.lo ≤ n && n ≤ r.hi && (n - r.lo) % r.step == 0

/-- Whether a code point belongs to one of the ranges. -/
def inRanges (rs : List CodeRange) (n : Nat) : Bool := rs.any (·.holds n)

/-! ## White space -/

/-- The white space characters outside ASCII. -/
def spaceRanges : List CodeRange := [
  ⟨133, 133, 1⟩, ⟨160, 160, 1⟩, ⟨5760, 5760, 1⟩, ⟨8192, 8202, 1⟩, ⟨8232, 8233, 1⟩,
  ⟨8239, 8239, 1⟩, ⟨8287, 8287, 1⟩, ⟨12288, 12288, 1⟩]

/-- White space: tab to carriage return, the four information separators, the blank, and
the Unicode spaces. -/
def isSpace (c : Char) : Bool :=
  let n := c.toNat
  if n < 128 then (9 ≤ n && n ≤ 13) || (28 ≤ n && n ≤ 32) else inRanges spaceRanges n

end MemberOrder.Text
