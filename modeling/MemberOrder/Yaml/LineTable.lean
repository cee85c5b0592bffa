/-
  The lines of a YAML stream: their texts without line breaks, their indentation, and the
  comments that have a line for themselves. Lines are counted from one.
-/
import MemberOrder.Source.Comment
import MemberOrder.Source.Span

namespace MemberOrder.Yaml

/-- Whether a hash sign is inside quotes, while a line is read. -/
inductive Quoting where
  | outside
  | single
  | double
  /-- After a backslash between double quotes. -/
  | escaped
  deriving Repr, DecidableEq

/-- How quoting goes on after a character. -/
def Quoting.after (q : Quoting) (c : Char) : Quoting :=
  match q with
  | .escaped => .double
  | .double => if c == '\\' then .escaped else if c == '"' then .outside else .double
  | .single => if c == Char.ofNat 39 then .outside else .single
  | .outside => if c == '"' then .double else if c == Char.ofNat 39 then .single else .outside

/-- Where a comment starts in the rest of a line: at a hash sign outside quotes with white
space, or nothing, in front of it. -/
def hashFrom : List Char → (quoting : Quoting) → (spaceBefore : Bool) → (column : Nat) → Option Nat
  | [], _, _, _ => none
  | c :: rest, quoting, spaceBefore, column =>
    if c == '#' && quoting == .outside && spaceBefore then some column
    else hashFrom rest (quoting.after c) (Text.isSpace c) (column + 1)

/-- Where the comment of a line starts. -/
def hashComment? (line : List Char) : Option Nat := hashFrom line .outside true 0

/-- The number of white space characters in front. -/
def indentOf (line : List Char) : Nat := (line.takeWhile Text.isSpace).length

/-- A line without its break. A carriage return in front of the break belongs to it. -/
def withoutReturn (line : List Char) : List Char :=
  if line.getLast? == some '\r' then line.dropLast else line

/-- The lines of a stream. -/
structure LineTable where
  source : Text
  /-- The texts of the lines. -/
  lines : Array (List Char)
  index : Lines

namespace LineTable

/-- The lines of a text. -/
def ofText (t : Text) : LineTable :=
  ⟨t, ((Text.lines t.toList).map withoutReturn).toArray, Lines.ofText t⟩

/-- The number of lines. -/
def count (t : LineTable) : Nat := t.lines.size

/-- The text of a line; nothing outside the stream. -/
def line (t : LineTable) (number : Nat) : List Char :=
  if number == 0 then [] else t.lines.getD (number - 1) []

/-- The offset of a column. -/
def offset (t : LineTable) (number column : Nat) : Nat := t.index.lineStart number + column

/-- The offset just past a line's text. -/
def lineEnd (t : LineTable) (number : Nat) : Nat := t.offset number (t.line number).length

/-- The indentation of a line. -/
def indent (t : LineTable) (number : Nat) : Nat := indentOf (t.line number)

/-- Whether a line holds nothing but white space. -/
def isBlank (t : LineTable) (number : Nat) : Bool := Text.isBlank (t.line number)

/-- Whether a line holds a comment only. -/
def isComment (t : LineTable) (number : Nat) : Bool :=
  (Text.trimLeft (t.line number)).head? == some '#'

/-- Whether a line holds no data. -/
def isIdle (t : LineTable) (number : Nat) : Bool := t.isBlank number || t.isComment number

/-- The comment that starts at a column of a line. -/
def commentAt (t : LineTable) (number column : Nat) : Comment :=
  let raw := Text.trimRight ((t.line number).drop column)
  let start := t.offset number column
  { text := String.ofList (Comment.body raw), kind := .line, raw := String.ofList raw
    line := number, endLine := number, offset := start, stop := start + raw.length }

/-- The comment that has a line for itself. -/
def comment? (t : LineTable) (number : Nat) : Option Comment :=
  if t.isComment number then some (t.commentAt number (t.indent number)) else none

/-- The span of the offsets from `start` up to `stop`. -/
def span (t : LineTable) (start stop : Nat) : Span := t.index.span start stop

/-- Whether a line starts with the dash of a sequence item. -/
def isItem (t : LineTable) (number : Nat) : Bool :=
  match Text.trimLeft (t.line number) with
  | ['-'] | '-' :: ' ' :: _ | '-' :: '\t' :: _ => true
  | _ => false

end LineTable

end MemberOrder.Yaml
