/-
  A place in a YAML text: what is still to be read, and the line and column reached. Past the
  end stands the null character, which no text that is read contains.
-/
import MemberOrder.Yaml.Problem

namespace MemberOrder.Yaml

/-- A line break, of any kind. -/
def isBreak (c : Char) : Bool :=
  c == '\n' || c == '\r' || c.toNat == 0x85 || c.toNat == 0x2028 || c.toNat == 0x2029

/-- Where a line ends: at a break or at the end of the text. -/
def endsLine (c : Char) : Bool := isBreak c || c.toNat == 0

/-- A blank. -/
def isBlank (c : Char) : Bool := c == ' ' || c == '\t'

/-- Where a word certainly ends. -/
def endsWord (c : Char) : Bool := isBlank c || endsLine c

/-- Where a tag, a directive or a handle has to end. -/
def endsProperty (c : Char) : Bool := c == ' ' || endsLine c

/-- A place in a text. Lines and columns count from zero. -/
structure Mark where
  offset : Nat := 0
  line : Nat := 0
  column : Nat := 0
  deriving Repr, DecidableEq, Inhabited

/-- What is still to be read of a text, and where that stands. Lines and columns count from
zero. -/
structure Cursor where
  rest : List Char
  offset : Nat := 0
  line : Nat := 0
  column : Nat := 0
  deriving Repr, DecidableEq, Inhabited

namespace Cursor

/-- The character `k` places ahead. -/
def peek (c : Cursor) (k : Nat) : Char := c.rest.getD k (Char.ofNat 0)

/-- The next character. -/
def head (c : Cursor) : Char := c.peek 0

/-- Whether nothing is left. -/
def atEnd (c : Cursor) : Bool := c.rest.isEmpty

/-- Whether a character ends its line, given what follows it. Only line feeds and carriage
returns count lines. -/
def closesLine (ch : Char) (rest : List Char) : Bool :=
  ch == '\n' || (ch == '\r' && rest.head? != some '\n')

/-- One character further on. A byte order mark takes no column. -/
def step (c : Cursor) : Cursor :=
  match c.rest with
  | [] => c
  | ch :: rest =>
    if closesLine ch rest then ⟨rest, c.offset + 1, c.line + 1, 0⟩
    else ⟨rest, c.offset + 1, c.line, if ch.toNat == 0xFEFF then c.column else c.column + 1⟩

/-- Some characters further on. -/
def advance : (count : Nat) → Cursor → Cursor
  | 0, c => c
  | count + 1, c => advance count c.step

/-- The run of characters that pass a test, and what comes after it. -/
def span (c : Cursor) (test : Char → Bool) : List Char × Cursor :=
  let run := c.rest.takeWhile test
  (run, c.advance run.length)

/-- Past the run of characters that pass a test. -/
def skip (c : Cursor) (test : Char → Bool) : Cursor := (c.span test).2

/-- A line break, if one is next. All breaks but the separators read as a line feed. -/
def lineBreak? (c : Cursor) : Option (Char × Cursor) :=
  let ch := c.head
  if ch == '\r' && c.peek 1 == '\n' then some ('\n', c.advance 2)
  else if ch == '\n' || ch == '\r' || ch.toNat == 0x85 then some ('\n', c.step)
  else if isBreak ch then some (ch, c.step)
  else none

/-- Past a line break, if one is next. -/
def skipBreak (c : Cursor) : Cursor := ((c.lineBreak?).map (·.2)).getD c

/-- The line breaks that come next, one after the other. -/
def lineBreaks : (fuel : Nat) → Cursor → List Char × Cursor
  | 0, c => ([], c)
  | fuel + 1, c =>
    match c.lineBreak? with
    | none => ([], c)
    | some (br, c) =>
      let (more, c) := lineBreaks fuel c
      (br :: more, c)

/-- The line breaks and blanks that come next. -/
def emptyLines : (fuel : Nat) → Cursor → List Char × Cursor
  | 0, c => ([], c)
  | fuel + 1, c =>
    match c.lineBreak? with
    | some (br, c) =>
      let (more, c) := emptyLines fuel c
      (br :: more, c)
    | none =>
      if isBlank c.head then
        let (more, rest) := emptyLines fuel c.step
        (c.head :: more, rest)
      else ([], c)

/-- Whether a document marker made of three times the same character is next. -/
def hasMarker (c : Cursor) (ch : Char) : Bool :=
  [ch, ch, ch].isPrefixOf c.rest && endsWord (c.peek 3)

/-- Whether a marker between documents is next. -/
def hasSeparator (c : Cursor) : Bool := c.hasMarker '-' || c.hasMarker '.'

/-- The place of a cursor. -/
def mark (c : Cursor) : Mark := ⟨c.offset, c.line, c.column⟩

/-- The fault that a problem is at the cursor. -/
def fault (c : Cursor) (problem : Problem) : Fault := .at c.line problem

end Cursor

end MemberOrder.Yaml
