/-
  Scalars as they stand in a source: plain, in quotes, or as a block of lines.
-/
import MemberOrder.Data.Node
import MemberOrder.Yaml.Cursor

/-!
Plain scalars: words without quotes, up to a colon, a comment, a bracket of the flow
collection around them, or a line that is not indented enough.
-/

namespace MemberOrder.Yaml

/-- A character that starts no plain scalar on its own. -/
def isIndicator (c : Char) : Bool :=
  "-?:,[]\x7b\x7d#&*!|>'\"%@\x60".toList.contains c

/-- A bracket or comma, which ends a plain scalar inside a flow collection. -/
def isFlowIndicator (c : Char) : Bool := ",[]\x7b\x7d".toList.contains c

namespace Cursor

/-- Whether a plain scalar can start here. A dash can start one before any word character,
and so can a colon inside brackets, unless the version is the first, and a question mark or a
colon outside them. -/
def startsPlain (c : Cursor) (inFlow first : Bool) : Bool :=
  let ch := c.head
  let next := c.peek 1
  if !(isIndicator ch || endsWord ch) then true
  else if ch == '-' then !endsWord next
  else if ch == ':' && inFlow && !first then !isBlank next
  else !endsWord next && !inFlow && (ch == '?' || ch == ':')

/-- Whether the word of a plain scalar ends at a character, given the one after it. In the
first version a question mark ends it inside brackets. -/
def endsPlain (inFlow first : Bool) (ch next : Char) : Bool :=
  if ch == ':' then endsWord next
  else endsWord ch || (inFlow && (isFlowIndicator ch || (first && ch == '?')))

/-- The characters of a word of a plain scalar. -/
def plainWord (inFlow first : Bool) : List Char → List Char
  | [] => []
  | ch :: rest =>
    if endsPlain inFlow first ch (rest.headD (Char.ofNat 0)) then []
    else ch :: plainWord inFlow first rest

/-- The breaks of the empty lines that come next; nothing in the first place when they end at
a marker between documents. -/
def plainBreaks : (fuel : Nat) → Cursor → Option (List Char) × Cursor
  | 0, c => (some [], c)
  | fuel + 1, c =>
    if c.hasSeparator then (none, c)
    else
      let c := c.skip (· == ' ')
      match c.lineBreak? with
      | none => (some [], c)
      | some (br, c) =>
        let (more, c) := plainBreaks fuel c
        (more.map (br :: ·), c)

/-- What separates two words of a plain scalar. -/
structure PlainGap where
  /-- What the gap stands for in the value; nothing when the scalar is over. -/
  spaces : List Char
  /-- Whether the gap holds a line break. -/
  broken : Bool
  rest : Cursor

/-- The gap after a word of a plain scalar. -/
def plainGap (c : Cursor) : PlainGap :=
  let (blanks, c) := c.span (· == ' ')
  match c.lineBreak? with
  | none => ⟨blanks, false, c⟩
  | some (br, c) =>
    match plainBreaks (c.rest.length + 1) c with
    | (none, c) => ⟨[], true, c⟩
    | (some more, c) =>
      ⟨if br != '\n' then br :: more else if more.isEmpty then [' '] else more, true, c⟩

/-- A plain scalar that has been read. -/
structure PlainScalar where
  text : List Char
  /-- Just past its last word. -/
  stop : Cursor
  /-- What the gap after it would stand for. -/
  gap : List Char
  /-- Whether a line break follows it. -/
  broken : Bool
  rest : Cursor

/-- Goes on with a plain scalar whose words so far are `done`, followed by a gap. -/
def plainRest (inFlow first : Bool) (margin : Nat) : (fuel : Nat) → PlainScalar → PlainScalar
  | 0, done => done
  | fuel + 1, done =>
    let c := done.rest
    let word := plainWord inFlow first c.rest
    if c.head == '#' || word.isEmpty then done
    else
      let stop := c.advance word.length
      let after := stop.plainGap
      let done := ⟨done.text ++ done.gap ++ word, stop, after.spaces, after.broken, after.rest⟩
      if after.spaces.isEmpty || after.rest.head == '#'
          || (!inFlow && after.rest.column < margin) then done
      else plainRest inFlow first margin fuel done

/-- Reads a plain scalar. Outside brackets its further lines reach at least to `margin`. -/
def plainScalar (c : Cursor) (inFlow first : Bool) (margin : Nat) : PlainScalar :=
  plainRest inFlow first margin (c.rest.length + 1) ⟨[], c, [], false, c⟩

/-- The empty lines after a plain scalar as a remark, if there are some. -/
def PlainScalar.remark? (p : PlainScalar) (start : Mark) : Option Remark :=
  if p.gap.head? == some '\n' then
    some ⟨String.ofList (p.gap ++ ['\n']), start.line, start.column⟩
  else none

end Cursor

end MemberOrder.Yaml

/-!
Scalars in quotes. Between single quotes only the quote itself is special, written twice;
between double quotes a backslash starts an escape. A line break folds into a blank, and
further breaks after it are kept.
-/

namespace MemberOrder.Yaml

/-- The character that an escape of one letter stands for. -/
def escaped? (c : Char) : Option Char :=
  match c with
  | '0' => some (Char.ofNat 0)
  | 'a' => some (Char.ofNat 7)
  | 'b' => some (Char.ofNat 8)
  | 't' | '\t' => some '\t'
  | 'n' => some '\n'
  | 'v' => some (Char.ofNat 11)
  | 'f' => some (Char.ofNat 12)
  | 'r' => some '\r'
  | 'e' => some (Char.ofNat 27)
  | ' ' => some ' '
  | '"' => some '"'
  | '/' => some '/'
  | '\\' => some '\\'
  | 'N' => some (Char.ofNat 0x85)
  | '_' => some (Char.ofNat 0xA0)
  | 'L' => some (Char.ofNat 0x2028)
  | 'P' => some (Char.ofNat 0x2029)
  | _ => none

/-- The number of hexadecimal digits after the letter of an escape. -/
def escapeWidth? (c : Char) : Option Nat :=
  match c with
  | 'x' => some 2
  | 'u' => some 4
  | 'U' => some 8
  | _ => none

/-- The value of a hexadecimal digit. -/
def hexValue? (c : Char) : Option Nat :=
  if c.isDigit then some (c.toNat - 48)
  else if 'a' ≤ c && c ≤ 'f' then some (c.toNat - 87)
  else if 'A' ≤ c && c ≤ 'F' then some (c.toNat - 55)
  else none

/-- The number that hexadecimal digits write. -/
def hexNumber (cs : List Char) : Nat := cs.foldl (fun n c => n * 16 + (hexValue? c).getD 0) 0

namespace Cursor

/-- The breaks of the empty lines that come next, and the first character after them. -/
def foldedBreaks : (fuel : Nat) → Cursor → Except Fault (List Char × Cursor)
  | 0, c => .ok ([], c)
  | fuel + 1, c =>
    if c.hasSeparator then .error (c.fault .separatorInQuotes)
    else
      let c := c.skip isBlank
      match c.lineBreak? with
      | none => .ok ([], c)
      | some (br, c) => do
        let (more, c) ← foldedBreaks fuel c
        return (br :: more, c)

/-- What blanks and breaks inside quotes stand for. -/
def quotedSpaces (c : Cursor) : Except Fault (List Char × Cursor) :=
  let (blanks, c) := c.span isBlank
  match c.lineBreak? with
  | some (br, c) => do
    let (more, c) ← foldedBreaks (c.rest.length + 1) c
    return (if br != '\n' then br :: more else if more.isEmpty then [' '] else more, c)
  | none => if c.atEnd then .error (c.fault .endInQuotes) else .ok (blanks, c)

/-- A character out of two halves, of which the first is read and the second is escaped next. -/
def lowHalf? (c : Cursor) (high : Nat) : Option (Char × Cursor) :=
  let low := hexNumber ((List.range 4).map fun k => c.peek (k + 2))
  if 0xD800 ≤ high && high < 0xDC00 && c.head == '\\' && c.peek 1 == 'u'
      && 0xDC00 ≤ low && low < 0xE000 then
    some (Char.ofNat (0x10000 + (high - 0xD800) * 0x400 + (low - 0xDC00)), c.advance 6)
  else none

/-- The character or the folded break that an escape stands for; the cursor is just past the
backslash. -/
def escapeSequence (c : Cursor) : Except Fault (List Char × Cursor) :=
  let ch := c.head
  match escaped? ch, escapeWidth? ch, c.lineBreak? with
  | some meant, _, _ => .ok ([meant], c.step)
  | none, some width, _ =>
    let c := c.step
    let digits := (List.range width).map c.peek
    match digits.find? fun d => (hexValue? d).isNone with
    | some stray => .error (c.fault (.escapeDigits width stray))
    | none =>
      let code := hexNumber digits
      let c := c.advance width
      if 0x110000 ≤ code then .error (.failed (.codePoint code))
      else
        match c.lowHalf? code with
        | some (whole, c) => .ok ([whole], c)
        | none => .ok ([Char.ofNat code], c)
  | none, none, some (_, c) => foldedBreaks (c.rest.length + 1) c
  | none, none, none => .error (c.fault (.unknownEscape ch))

/-- The rest of a scalar in quotes, and what comes after its closing quote. -/
def quotedRest (quote : Char) : (fuel : Nat) → Cursor → Except Fault (List Char × Cursor)
  | 0, c => .error (c.fault .endInQuotes)
  | fuel + 1, c =>
    let ch := c.head
    let isDouble := quote == '"'
    if ch == quote && !isDouble && c.peek 1 == quote then do
      let (more, c) ← quotedRest quote fuel (c.advance 2)
      return (quote :: more, c)
    else if ch == quote then .ok ([], c.step)
    else if ch == '\\' && isDouble then do
      let (meant, c) ← c.step.escapeSequence
      let (more, c) ← quotedRest quote fuel c
      return (meant ++ more, c)
    else if endsWord ch then do
      let (spaces, c) ← c.quotedSpaces
      let (more, c) ← quotedRest quote fuel c
      return (spaces ++ more, c)
    else do
      let (more, c) ← quotedRest quote fuel c.step
      return (ch :: more, c)

/-- Reads a scalar in quotes; the cursor is at the opening quote. -/
def quotedScalar (c : Cursor) : Except Fault (String × Cursor) := do
  let (cs, rest) ← quotedRest c.head (c.rest.length + 1) c.step
  return (String.ofList cs, rest)

end Cursor

end MemberOrder.Yaml

/-! Block scalars: a header line and the lines indented below it, kept as they are or folded. -/

namespace MemberOrder.Yaml

/-- What happens to the line breaks after the last line of a block scalar. -/
inductive Chomping where
  | strip
  | clip
  | keep
  deriving Repr, DecidableEq

/-- The header of a block scalar: chomping, and how much deeper than its parent it is
indented, where that is written. -/
structure BlockHeader where
  chomping : Chomping := .clip
  increment : Option Nat := none

namespace Cursor

/-- The chomping that an indicator asks for. -/
def chompingOf? (c : Char) : Option Chomping :=
  if c == '+' then some .keep else if c == '-' then some .strip else none

/-- A digit that says how deep a block scalar is indented. -/
def increment? (c : Cursor) : Except Fault (Option Nat) :=
  if c.head == '0' then .error (c.fault .zeroIndentation)
  else if c.head.isDigit then .ok (some (c.head.toNat - 48))
  else .ok none

/-- The indicators of a block scalar, in either order. -/
def blockIndicators (c : Cursor) : Except Fault (BlockHeader × Cursor) := do
  let (header, c) ← match chompingOf? c.head with
    | some chomping => do
      let c := c.step
      match ← c.increment? with
      | some n => pure (({ chomping, increment := some n } : BlockHeader), c.step)
      | none => pure (({ chomping } : BlockHeader), c)
    | none => do
      match ← c.increment? with
      | some n =>
        let c := c.step
        match chompingOf? c.head with
        | some chomping => pure (({ chomping, increment := some n } : BlockHeader), c.step)
        | none => pure (({ increment := some n } : BlockHeader), c)
      | none => pure (({} : BlockHeader), c)
  if endsProperty c.head then return (header, c) else throw (c.fault (.blockIndicator c.head))

/-- Past blanks, a comment and the break at the end of a line. The comment, if there is one,
comes with the blanks in front of it. -/
def restOfLine (c : Cursor) : Except Fault (Option String × Cursor) :=
  let (blanks, c) := c.span (· == ' ')
  let (comment, c) := if c.head == '#' then c.span (!endsLine ·) else ([], c)
  let header := if comment.isEmpty then none else some (String.ofList (blanks ++ comment))
  if endsLine c.head then .ok (header, c.skipBreak) else .error (c.fault (.lineRest c.head))

/-- Past at most the blanks up to a column. -/
def skipToColumn (column : Nat) : (fuel : Nat) → Cursor → Cursor
  | 0, c => c
  | fuel + 1, c =>
    if c.column < column && c.head == ' ' then skipToColumn column fuel c.step else c

/-- The breaks of empty lines, and the first line after them up to a column. -/
def blockBreaks (column : Nat) : (fuel : Nat) → Cursor → List Char × Cursor
  | 0, c => ([], c)
  | fuel + 1, c =>
    let c := skipToColumn column column c
    match c.lineBreak? with
    | none => ([], c)
    | some (br, c) =>
      let (more, c) := blockBreaks column fuel c
      (br :: more, c)

/-- The empty lines in front of a block scalar. -/
structure EmptyLines where
  breaks : List Char := []
  /-- The deepest column that blanks reach, those before the first line included. -/
  deepest : Nat := 0
  /-- The column of the first break. -/
  first : Option Nat := none
  /-- The number of blanks in front of the first line. -/
  blanks : Nat := 0
  rest : Cursor

/-- Goes past empty lines and the blanks of the first line. -/
def blockIndentation : (fuel : Nat) → EmptyLines → EmptyLines
  | 0, e => e
  | fuel + 1, e =>
    let (run, c) := e.rest.span (· == ' ')
    let e := { e with
      deepest := if run.isEmpty then e.deepest else max e.deepest c.column
      blanks := run.length
      rest := c }
    match c.lineBreak? with
    | none => e
    | some (br, after) =>
      blockIndentation fuel { e with
        breaks := e.breaks ++ [br]
        first := if e.first.isNone then some c.column else e.first
        rest := after }

/-- The place of a cursor in its line, which starts with some blanks: at most half a line of
text on either side, and a mark below. -/
def excerpt (c : Cursor) (blanks : Nat) : String :=
  let (head, before) := if blanks < 37 then ("", blanks) else (" ... ", 32)
  let line := c.rest.takeWhile (!endsLine ·)
  let (after, tail) := if line.length < 37 then (line, "") else (line.take 32, " ... ")
  let blank (n : Nat) := String.ofList (List.replicate n ' ')
  blank 4 ++ head ++ blank before ++ String.ofList after ++ tail ++ "\n"
    ++ blank (4 + before + head.length) ++ "^ (line: " ++ toString (c.line + 1) ++ ")"

/-- What a block scalar holds so far. -/
structure BlockText where
  text : List Char := []
  /-- The break after the last line. -/
  lineBreak : List Char := []
  /-- The breaks of the empty lines after it. -/
  breaks : List Char
  rest : Cursor

/-- The lines of a block scalar. -/
def blockLines (folded atMargin : Bool) (indent : Nat) : (fuel : Nat) → BlockText → BlockText
  | 0, b => b
  | fuel + 1, b =>
    let c := b.rest
    if c.column != indent || c.atEnd then b
    else
      let opensPlain := !isBlank c.head
      let (line, c) := c.span (!endsLine ·)
      let (lineBreak, c) := match c.lineBreak? with
        | some (br, c) => ([br], c)
        | none => ([], c)
      let (breaks, c) := blockBreaks indent (c.rest.length + 1) c
      let text := b.text ++ b.breaks ++ line
      if (atMargin && c.column == 0 && c.hasSeparator) || c.column != indent || c.atEnd then
        ⟨text, lineBreak, breaks, c⟩
      else
        let joint :=
          if folded && lineBreak == ['\n'] && opensPlain && !isBlank c.head then
            if breaks.isEmpty then [' '] else []
          else lineBreak
        blockLines folded atMargin indent fuel ⟨text ++ joint, lineBreak, breaks, c⟩

/-- A block scalar that has been read. -/
structure BlockScalar where
  text : String
  /-- The comment after its mark. -/
  comment : Option String
  /-- The breaks after its last line that it does not keep. -/
  trailing : List Char
  rest : Cursor

/-- Reads a block scalar; the cursor is at its mark. `margin` is the least column of its
lines. -/
def blockScalar (c : Cursor) (folded : Bool) (margin : Nat) : Except Fault BlockScalar := do
  let (header, c) ← c.step.blockIndicators
  let (comment, c) ← c.restOfLine
  let fuel := c.rest.length + 1
  let (indent, start) ← match header.increment with
    | some n =>
      let indent := max margin 1 + n - 1
      let (breaks, c) := blockBreaks indent fuel c
      pure (indent, ({ breaks, rest := c } : BlockText))
    | none =>
      let e := blockIndentation fuel { rest := c }
      let first := e.first.getD 0
      if 0 < first && first < e.deepest then
        throw (.deeperLine e.rest.line e.rest.column (e.rest.excerpt e.blanks))
      pure (max margin e.deepest, ({ breaks := e.breaks, rest := e.rest } : BlockText))
  let b := blockLines folded (margin == 0) indent fuel start
  let (tail, trailing) := match header.chomping with
    | .strip => ([], b.breaks)
    | .clip => (b.lineBreak, b.breaks)
    | .keep => (b.lineBreak ++ b.breaks, [])
  return ⟨String.ofList (b.text ++ tail), comment, trailing, b.rest⟩

end Cursor

end MemberOrder.Yaml
