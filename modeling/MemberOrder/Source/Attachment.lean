/-
  Which comment belongs to which declaration. The comments of a source form a pool; a
  comment that is handed to a declaration leaves the pool, so none is handed out twice.

  Leading comments stand before a declaration, chained backwards while each gap is short
  and holds nothing but white space. Trailing comments start on the line a declaration
  ends on. What is left inside a body is dangling.
-/
import MemberOrder.Source.Scanned

namespace MemberOrder

/-- Work that takes comments out of the pool of those not yet handed out. -/
abbrev Claiming (α : Type) := StateM (List Comment) α

namespace Attachment

/-- How many lines a leading comment may lie above what follows it. -/
def leadingWindow : Nat := 2

/-- Whether a comment lies between two offsets. -/
def liesBetween (start stop : Nat) (c : Comment) : Bool := start ≤ c.offset && c.stop ≤ stop

/-- Removes the comments that start where one of `taken` starts. -/
def without (taken pool : List Comment) : List Comment :=
  pool.filter fun c => !taken.any (·.offset == c.offset)

/-- Hands out comments. -/
def claim (taken : List Comment) : Claiming (List Comment) := do
  modify (without taken)
  return taken

/-- Hands out every comment left between two offsets. -/
def takeInside (start stop : Nat) : Claiming (List Comment) := do
  claim ((← get).filter (liesBetween start stop))

/-- Walks up through the comments above a target, nearest first, and collects those that
lead it. The anchor is what the next comment has to reach. -/
def leadingOf (s : Scanned) (targetLine : Nat) :
    (candidates : List Comment) → (anchorLine anchorOffset : Nat) → (picked : List Comment) →
    List Comment
  | [], _, _, picked => picked
  | c :: above, anchorLine, anchorOffset, picked =>
    if leadingWindow + c.lastLine < anchorLine then picked
    else if !Text.isBlank (s.masked.slice c.stop anchorOffset) then picked
    else if c.line != targetLine && c.lastLine != targetLine && !s.startsLine c.offset then picked
    else leadingOf s targetLine above c.line c.offset (c :: picked)

/-- Hands out the comments that lead the declaration at `target`; none of them starts
before `floor`. -/
def takeLeading (s : Scanned) (target floor : Nat) : Claiming (List Comment) := do
  let candidates := (← get).filter (liesBetween floor target)
  let line := s.lineAt target
  claim (leadingOf s line candidates.reverse line target [])

/-- The comments that follow each other on a line, with nothing but white space and
characters of `skip` between them. -/
def trailingOf (s : Scanned) (line : Nat) (skip : List Char) :
    (candidates : List Comment) → (cursor : Nat) → List Comment
  | [], _ => []
  | c :: rest, cursor =>
    if c.line != line then []
    else if (s.masked.slice cursor c.offset).any fun d => !Text.isSpace d && !skip.contains d
    then []
    else c :: trailingOf s line skip rest c.stop

/-- Hands out the comments that follow, on the same line, a declaration ending at `after`. -/
def takeTrailing (s : Scanned) (after limit : Nat) (skip : List Char := []) :
    Claiming (List Comment) := do
  let candidates := (← get).filter (liesBetween after limit)
  claim (trailingOf s (s.lineAt (after - 1)) skip candidates after)

/-- Just past the last of some comments, but not before `least`. -/
def endOf (comments : List Comment) (least : Nat) : Nat :=
  comments.foldl (fun m c => max m c.stop) least

/-- Where the first of some comments starts, or `default`. -/
def startOf (comments : List Comment) (default : Nat) : Nat :=
  match comments with
  | c :: _ => c.offset
  | [] => default

/-- The text from the end of a declaration through its trailing comments; empty when one of
them stands before that end. -/
def trailingText (t : Text) (after : Nat) (trailing : List Comment) : String :=
  match trailing.getLast? with
  | none => ""
  | some last => if trailing.any (·.offset < after) then "" else t.cut after last.stop

end Attachment

end MemberOrder
