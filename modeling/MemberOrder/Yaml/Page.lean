/-
  A text that is written from left to right, and the scalars on it. Lines are broken at a
  blank once they have become wide.
-/
import MemberOrder.Data.Node

/-!
How scalars are marked off inside a flow collection: bare where that reads back as the same
scalar, and otherwise in quotes.
-/

namespace MemberOrder.Yaml

/-- White space next to which a colon or a hash sign is special. -/
def isSeparating (c : Char) : Bool :=
  c == ' ' || c == '\t' || c == '\n' || c == '\r' || c.toNat == 0 || c.toNat == 0x85
    || c.toNat == 0x2028 || c.toNat == 0x2029

/-- A break that may stand between single quotes. -/
def isInnerBreak (c : Char) : Bool :=
  c == '\n' || c.toNat == 0x85 || c.toNat == 0x2028 || c.toNat == 0x2029

/-- A character that can be written between double quotes only. -/
def isSpecial (c : Char) : Bool :=
  let n := c.toNat
  !(c == '\n' || (0x20 ≤ n && n ≤ 0x7E) || n == 0x85 || (0xA0 ≤ n && n ≤ 0xD7FF)
    || (0xE000 ≤ n && n ≤ 0xFFFD && n != 0xFEFF) || 0x10000 ≤ n)

/-- Whether the first character of a text keeps it from being plain in a flow collection. -/
def firstIsIndicator (first : Char) (rest : List Char) : Bool :=
  if first == '?' || first == ':' then rest.isEmpty
  else if first == '-' then (rest.head?.map isSeparating).getD true
  else "#,[]\x7b\x7d&*!|>'\"%@\x60".toList.contains first

/-- Whether a later character keeps a text from being plain in a flow collection. -/
def hasIndicator : (before : Char) → List Char → Bool
  | _, [] => false
  | before, c :: rest =>
    ",[]\x7b\x7d".toList.contains c
      || (c == ':' && (rest.head?.map isSeparating).getD true)
      || (c == '#' && isSeparating before)
      || hasIndicator c rest

/-- Whether characters of two kinds stand next to each other. -/
def hasPair (first second : Char → Bool) : List Char → Bool
  | a :: b :: rest => (first a && second b) || hasPair first second (b :: rest)
  | _ => false

/-- Whether a text may stand without quotes in a flow collection, as far as its characters go. -/
def plainAllowed (cs : List Char) : Bool :=
  match cs with
  | [] => false
  | first :: rest =>
    let last := cs.getLast?.getD first
    !(first == ' ' || last == ' ' || cs.any isInnerBreak || cs.any isSpecial
      || ['-', '-', '-'].isPrefixOf cs || ['.', '.', '.'].isPrefixOf cs
      || firstIsIndicator first rest || hasIndicator first rest)

/-- Whether a text may stand between single quotes. -/
def singleAllowed (cs : List Char) : Bool :=
  !(cs.any isSpecial || hasPair isInnerBreak (· == ' ') cs || hasPair (· == ' ') isInnerBreak cs)

/-- The letter that stands for a character after a backslash. -/
def escapeLetter? (c : Char) : Option Char :=
  match c.toNat with
  | 0 => some '0'
  | 7 => some 'a'
  | 8 => some 'b'
  | 9 => some 't'
  | 10 => some 'n'
  | 11 => some 'v'
  | 12 => some 'f'
  | 13 => some 'r'
  | 27 => some 'e'
  | 34 => some '"'
  | 92 => some '\\'
  | 0x85 => some 'N'
  | 0x2028 => some 'L'
  | 0x2029 => some 'P'
  | _ => none

/-- A number in capital hexadecimal digits. -/
def capitalHex (width n : Nat) : List Char := (Text.hexDigits width n).map Char.toUpper

/-- A character between double quotes. -/
def doubleQuotedChar (c : Char) : List Char :=
  let n := c.toNat
  match escapeLetter? c with
  | some letter => ['\\', letter]
  | none =>
    if !isSpecial c then [c]
    else if n ≤ 0xFF then ['\\', 'x'] ++ capitalHex 2 n
    else if n ≤ 0xFFFF then ['\\', 'u'] ++ capitalHex 4 n
    else ['\\', 'U'] ++ capitalHex 8 n

/-- How a scalar is marked off. -/
inductive Marking where
  | bare
  | single
  | double
  deriving Repr, DecidableEq, Inhabited

/-- How a scalar of a flow collection is marked off. `readsBack` tells whether it is still the
same when written bare. -/
def markingOf (style : ScalarStyle) (isKey readsBack : Bool) (cs : List Char) : Marking :=
  let single := singleAllowed cs && !(isKey && cs.any isInnerBreak)
  match style with
  | .doubleQuoted => .double
  | .singleQuoted => if single then .single else .double
  | _ =>
    if readsBack && plainAllowed cs then .bare
    else if cs.contains (Char.ofNat 39) || cs.contains '\n' then .double
    else if single then .single
    else .double

end MemberOrder.Yaml

/-! ## The page -/

namespace MemberOrder.Yaml

/-- A text that is being written. -/
structure Page where
  /-- The characters, last first. -/
  reversed : List Char := []
  column : Nat := 0
  /-- Whether no blank is needed before the next word. -/
  isSpaced : Bool := true
  /-- Whether the line is empty so far. -/
  isFresh : Bool := true
  /-- Whether the next line break is left out. -/
  holdsBreak : Bool := false

/-- The width after which lines are broken. -/
def pageWidth : Nat := 4096

namespace Page

/-- The text that is written. -/
def text (p : Page) : List Char := p.reversed.reverse

/-- Whether a line has become too wide. -/
def isWide (p : Page) : Bool := pageWidth < p.column

/-- Writes characters. -/
def put (cs : List Char) (p : Page) : Page :=
  { p with reversed := cs.reverse ++ p.reversed, column := p.column + cs.length }

/-- Marks that a word was written last. -/
def inWord (p : Page) : Page := { p with isSpaced := false, isFresh := false }

/-- Ends the line. -/
def breakWith (br : Char) (p : Page) : Page :=
  { p with reversed := br :: p.reversed, column := 0, isSpaced := true, isFresh := true }

/-- Ends the line with a line feed. -/
def newLine (p : Page) : Page := p.breakWith '\n'

/-- Writes a sign, after a blank if it needs one. -/
def sign (cs : List Char) (needsBlank isSpaced : Bool) (p : Page) : Page :=
  let p := p.put (if p.isSpaced || !needsBlank then cs else ' ' :: cs)
  { p with isSpaced, isFresh := false }

/-- Writes a word that stands apart. -/
def word (cs : List Char) (p : Page) : Page := p.sign cs true false

/-- Goes to the start of a line, unless it is reached. -/
def indent (p : Page) : Page :=
  if p.isFresh && p.column == 0 && p.isSpaced then p
  else if p.holdsBreak then { p with holdsBreak := false }
  else p.newLine

/-- Goes to the next line if this one is too wide. -/
def wrap (p : Page) : Page := if p.isWide then p.indent else p

/-! ## Scalars -/

/-- Cuts a text into runs of characters of one class. -/
def runsBy (classOf : Char → Nat) : List Char → List (List Char)
  | [] => []
  | c :: rest =>
    match runsBy classOf rest with
    | (d :: run) :: others =>
      if classOf c == classOf d then (c :: d :: run) :: others else [c] :: (d :: run) :: others
    | others => [c] :: others

/-- Writes a scalar without quotes. A single blank may become a line break. -/
def bareText (cs : List Char) (splits : Bool) (p : Page) : Page :=
  if cs.isEmpty then p
  else
    let p := (if p.isSpaced then p else p.put [' ']).inWord
    (runsBy (fun c => if c == ' ' then 1 else 0) cs).foldl (fun p run =>
      if run == [' '] && splits && p.isWide then p.indent.inWord else p.put run) p

/-- Writes line breaks, the first of them twice. -/
def breaks (run : List Char) (p : Page) : Page :=
  let p := if run.head? == some '\n' then p.newLine else p
  (run.foldl (fun p br => p.breakWith br) p).indent

/-- Writes the runs of a text between single quotes. A single blank between others may become
a line break. -/
def singleRuns (splits : Bool) : (isFirst : Bool) → List (List Char) → Page → Page
  | _, [], p => p
  | isFirst, run :: rest, p =>
    let quote := Char.ofNat 39
    let p := match run with
      | [] => p
      | c :: _ =>
        if c == quote then p.put (run ++ run)
        else if isInnerBreak c then p.breaks run
        else if run == [' '] && splits && p.isWide && !isFirst && !rest.isEmpty then p.indent
        else p.put run
    singleRuns splits false rest p

/-- Writes a text between single quotes. -/
def singleText (cs : List Char) (splits : Bool) (p : Page) : Page :=
  let quote := Char.ofNat 39
  let classOf (c : Char) : Nat :=
    if c == ' ' then 1 else if isInnerBreak c then 2 else if c == quote then 3 else 0
  ((p.word [quote]).singleRuns splits true (runsBy classOf cs)).sign [quote] false false

/-- Breaks a line between double quotes. A backslash tells that the break does not count. -/
def doubleBreak (next : Option Char) (p : Page) : Page :=
  let p := (p.put ['\\']).indent.inWord
  if next == some ' ' then p.put ['\\'] else p

/-- Writes the characters of a text between double quotes. `isFirst` tells that nothing is
written yet, `isEscaped` that an escape was written last. -/
def doubleChars (splits : Bool) : (isFirst isEscaped : Bool) → List Char → Page → Page
  | _, _, [], p => p
  | isFirst, isEscaped, c :: rest, p =>
    let cs := doubleQuotedChar c
    let mayBreak := splits && !isFirst && !rest.isEmpty
    if cs != [c] then
      let p := p.put cs
      let p := if mayBreak && pageWidth + 1 < p.column then p.doubleBreak rest.head? else p
      doubleChars splits false true rest p
    else if mayBreak && p.isWide && c == ' ' && !isEscaped && rest.head? != some ' ' then
      doubleChars splits false true rest p.indent.inWord
    else
      let p := if mayBreak && p.isWide && (c == ' ' || isEscaped) then p.doubleBreak (some c) else p
      doubleChars splits false false rest (p.put cs)

/-- Writes a text between double quotes. -/
def doubleText (cs : List Char) (splits : Bool) (p : Page) : Page :=
  ((p.word ['"']).doubleChars splits true true cs).sign ['"'] false false

/-- Writes a scalar. Keys are not split over lines. -/
def scalar (marking : Marking) (cs : List Char) (splits : Bool) (p : Page) : Page :=
  match marking with
  | .bare => p.bareText cs splits
  | .single => p.singleText cs splits
  | .double => p.doubleText cs splits

/-! ## Remarks -/

/-- Writes a remark at its column. One that is no comment needs no blanks. -/
def remark (r : Remark) (cs : List Char) (p : Page) : Page :=
  let isOpen := r.text.toList.head? == some '\n'
  let blanks :=
    if isOpen then 0
    else
      let count := r.column - p.column
      if p.column != 0 && !Text.isBlank cs && count == 0 then 1 else count
  { p with reversed := cs.reverse ++ List.replicate blanks ' ' ++ p.reversed }

/-- Writes a remark after something, to the end of the line. -/
def remarkAfter (r : Remark) (p : Page) : Page :=
  let cs := r.text.toList
  (p.remark r (if cs.getLast? == some '\n' then cs.dropLast else cs)).newLine

/-- Writes remarks in front of something, each on its own line. -/
def remarksBefore (rs : List Remark) (p : Page) : Page :=
  rs.foldl (fun p r => (if p.column == 0 then p else p.newLine).remark r r.text.toList) p

end Page

end MemberOrder.Yaml
