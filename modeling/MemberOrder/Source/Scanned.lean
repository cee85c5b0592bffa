/-
  A scanned source: the text, its companions without comments and without the insides of
  literals, its comments and its lines. Positions are answered here.
-/
import MemberOrder.Source.Lexeme

namespace MemberOrder

/-- A source text with everything that scanning finds out about it. -/
structure Scanned where
  source : Text
  /-- The text with comments blanked. -/
  clean : Text
  /-- The text with comments and the insides of literals blanked. -/
  masked : Text
  comments : List Comment
  lines : Lines
  deriving Inhabited

namespace Scanned

/-- Scans a text with the comments and literals of a language. -/
def scan (p : Profile) (t : Text) : Scanned :=
  let ls := Lexeme.lexemes p t
  let lines := Lines.ofText t
  { source := t
    clean := (ls.flatMap (·.clean t)).toArray
    masked := (ls.flatMap (·.masked t)).toArray
    comments := ls.filterMap (·.comment? t lines)
    lines }

/-- The line that holds an offset. -/
def lineAt (s : Scanned) (offset : Nat) : Nat := s.lines.lineAt offset

/-- The span of the offsets from `start` up to `stop`. -/
def span (s : Scanned) (start stop : Nat) : Span := s.lines.span start stop

/-- Where the line that holds an offset starts. -/
def lineStartOf (s : Scanned) (offset : Nat) : Nat := s.lines.lineStart (s.lineAt offset)

/-- The blanks and tabs that start the line of an offset, as far as the offset. -/
def indentOf (s : Scanned) (offset : Nat) : String :=
  String.ofList ((s.source.slice (s.lineStartOf offset) offset).takeWhile
    fun c => c == ' ' || c == '\t')

/-- Whether nothing but white space and comments precedes an offset on its line. -/
def startsLine (s : Scanned) (offset : Nat) : Bool :=
  Text.isBlank (s.masked.slice (s.lineStartOf offset) offset)

/-- Whether nothing but white space precedes an offset on its line. -/
def startsLineVerbatim (s : Scanned) (offset : Nat) : Bool :=
  Text.isBlank (s.source.slice (s.lineStartOf offset) offset)

/-- The next offset that holds code, or `limit`. -/
def nextCode (s : Scanned) (offset limit : Nat) : Nat := s.masked.nextCode offset limit

/-- The next offset that holds code, or the end of the text. -/
def nextCodeToEnd (s : Scanned) (offset : Nat) : Nat := s.masked.nextCode offset s.masked.size

/-- The offset just past the last code before `offset`, or `floor`. -/
def prevCode (s : Scanned) (offset floor : Nat) : Nat := s.masked.prevCode floor offset

/-- Whether no line feed lies between two offsets. -/
def onOneLine (s : Scanned) (start stop : Nat) : Bool := !(s.source.slice start stop).contains '\n'

/-- The indentation of the first of the offsets that starts a line. -/
def indentOfFirst (s : Scanned) (offsets : List Nat) : String :=
  match offsets.find? s.startsLineVerbatim with
  | some offset => s.indentOf offset
  | none => ""

end Scanned

end MemberOrder
