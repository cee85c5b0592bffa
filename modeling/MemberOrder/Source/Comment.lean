/-
  Comments as they stand in a source, and the text they carry without their markers.
-/
import MemberOrder.Text.Basic

namespace MemberOrder

/-- The two shapes of a comment: to the end of the line, or between two markers. -/
inductive CommentKind where
  | line
  | block
  deriving Repr, DecidableEq, Inhabited

/-- One comment of a source. -/
structure Comment where
  /-- The body without markers, trimmed. -/
  text : String
  kind : CommentKind
  /-- The comment as written, markers included. -/
  raw : String
  /-- The line it starts on. -/
  line : Nat := 0
  /-- The line it ends on. -/
  endLine : Nat := 0
  /-- Where it starts. -/
  offset : Nat := 0
  /-- Just past its last character. -/
  stop : Nat := 0
  deriving Repr, DecidableEq, Inhabited

namespace Comment

/-- The line a comment ends on; comments made without one end where they start. -/
def lastLine (c : Comment) : Nat := if c.endLine == 0 then c.line else c.endLine

/-- Drops a closing block marker, also one before a last line feed. -/
def dropCloser (cs : List Char) : List Char :=
  match cs.reverse with
  | '/' :: '*' :: rest => rest.reverse
  | '\n' :: '/' :: '*' :: rest => rest.reverse ++ ['\n']
  | _ => cs

/-- The body of a comment: the text without its markers, trimmed. -/
def body (raw : List Char) : List Char :=
  match raw with
  | '/' :: '*' :: '*' :: rest => Text.trim (dropCloser rest)
  | '/' :: '*' :: rest => Text.trim (dropCloser rest)
  | '/' :: '/' :: rest => Text.trim rest
  | '#' :: rest => Text.trim rest
  | _ => Text.trim raw

end Comment

end MemberOrder
