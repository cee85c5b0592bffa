/-
  The members of script bodies: where a body is cut, what a member is, and the members of
  the object values inside.
-/
import MemberOrder.Model.Entity
import MemberOrder.Pattern.Basic
import MemberOrder.Source.Attachment
import MemberOrder.Source.Brackets

/-! The patterns of TypeScript and JavaScript sources: declarations, calls and members. -/

namespace MemberOrder.Script

open Pattern

/-- A character that an identifier starts with. -/
def isIdentifierStart (c : Char) : Bool := isNameStart c || c == '$'

/-- A character that an identifier goes on with. -/
def isIdentifierPart (c : Char) : Bool := Text.isWord c || c == '$'

/-- An identifier. -/
def identifier : Pattern := .seq (.one isIdentifierStart) (.span isIdentifierPart)

/-- The apostrophe as a text. -/
def apostrophe : String := String.singleton (Char.ofNat 39)

/-- The name of a member: an identifier, a quoted name, a number, a private name or a
computed name. -/
def memberName : Pattern :=
  choice [
    identifier,
    all [char '"', spanNot "\"\n", char '"'],
    all [word apostrophe, spanNot (apostrophe ++ "\n"), word apostrophe],
    .seq (.one Text.isDecimal) (.span fun c => Text.isWord c || c == '.'),
    .seq (char '#') identifier,
    all [char '[', spanNot "]", char ']']]

/-- A word and the white space after it. -/
def keyword (s : String) : Pattern := .seq (word s) spaces1

/-- The declarations whose members can be sorted, up to their name. -/
def declaration : Pattern :=
  let otherDefaults :=
    choice (["interface", "class", "function", "async", "abstract", "enum"].map word)
  let defaultExport := all [
    .mark "default" (.seq (keyword "export") (keyword "default")),
    .notAhead (.seq otherDefaults wordBoundary),
    .ahead (.one fun c => c == '{' || isIdentifierPart c)]
  let named := all [
    optional (.mark "export" (keyword "export")),
    optional (keyword "default"),
    optional (keyword "declare"),
    choice [
      .seq (keyword "interface") (.mark "interface" identifier),
      .seq (keyword "type") (.mark "type" identifier),
      all [choice [word "const", word "let", word "var"], spaces1, .mark "variable" identifier]]]
  .seq (notBehind fun c => isIdentifierPart c || c == '.') (.either defaultExport named)

/-- A path of names. -/
def namePath : Pattern := some1 fun c => isIdentifierPart c || c == '.'

/-- A call up to its opening parenthesis. -/
def call : Pattern :=
  all [optional (keyword "new"), namePath, spaces,
    optional (all [char '<', spanNot ">(", char '>']), spaces, char '(']

/-- Blanks and tabs. -/
def blanks : Pattern := .span fun c => c == ' ' || c == '\t'

/-- Blanks and tabs, at least one. -/
def blanks1 : Pattern := some1 fun c => c == ' ' || c == '\t'

/-- What belongs to a declaration after its closing bracket: a type assertion and a
semicolon. -/
def tail : Pattern :=
  let assertion := all [
    choice [word "as", word "satisfies"], blanks1, namePath,
    optional (all [char '<', spanNot ">\n", char '>']), .many (word "[]"), blanks]
  all [blanks, optional assertion, optional (char ';')]

/-- A spread. -/
def spread : Pattern := word "..."

/-- One of some words, each with the white space after it, as often as possible. -/
def modifiers (words : List Pattern) : Pattern := .many (.seq (choice words) spaces1)

/-- A getter or a setter up to its opening parenthesis. -/
def accessor : Pattern :=
  all [modifiers (["static", "public", "private", "protected"].map word),
    .mark "kind" (choice [word "get", word "set"]), spaces1, .mark "name" memberName, spaces,
    char '(']

/-- A method up to its opening parenthesis. -/
def method : Pattern :=
  all [modifiers
      (["static", "public", "private", "protected", "readonly", "abstract", "async"].map word),
    optional (.seq (char '*') spaces), .mark "name" memberName, spaces,
    optional (.mark "optional" (char '?')), spaces,
    optional (all [char '<', spanNot ">", char '>']), spaces, char '(']

/-- A property up to its colon. -/
def property : Pattern :=
  all [modifiers
      ((["readonly", "static", "declare", "public", "private", "protected"].map word)
        ++ [.seq (oneOf "-+") (word "readonly")]),
    .mark "name" memberName, spaces, optional (.mark "optional" (oneOf "?!")), spaces, char ':']

/-- The bracket of an index signature or of a mapped type. -/
def indexSignature : Pattern :=
  let inWord := all [.one Text.isSpace, word "in", .one Text.isSpace]
  all [char '[', spanNot "]", .either (char ':') inWord, spanNot "]", char ']']

end MemberOrder.Script

/-! ## Members -/

namespace MemberOrder.Script

open Attachment

/-! ## Cutting a body -/

/-- A member's range in a body, and the separator after it with its offset. -/
structure Segment where
  start : Nat
  stop : Nat
  separator : Option (Char × Nat) := none
  deriving Repr, DecidableEq, Inhabited

/-- Just past a segment and its separator. -/
def Segment.after (g : Segment) : Nat :=
  match g.separator with
  | some (_, place) => place + 1
  | none => g.stop

/-- The separator as a text. -/
def Segment.separatorText (g : Segment) : String :=
  match g.separator with
  | some (c, _) => String.singleton c
  | none => ""

/-- Line ends after which a type goes on. -/
def continuesAfter : List Char := "|&:=(<[,.?".toList

/-- Line starts with which a type goes on. -/
def continuesWith : List Char := "|&.=>?".toList

/-- Whether what stands from `start` up to `stop` goes on past the line feed at `newline`. -/
def goesOn (s : Scanned) (start stop newline : Nat) : Bool :=
  let last := s.prevCode stop start
  let endsOpen := start < last && (s.masked.testAt (last - 1) continuesAfter.contains
    || (start + 1 < last && s.masked.standsAt (last - 2) ['=', '>']))
  endsOpen || s.masked.testAt (s.nextCodeToEnd newline) continuesWith.contains

/-- How far a body has been cut: open brackets, open angle brackets, where the current
segment starts, and the segments found, last first. -/
structure Cutting where
  depth : Nat := 0
  angle : Nat := 0
  start : Option Nat := none
  segments : List Segment := []

/-- Ends the current segment. -/
def Cutting.push (c : Cutting) (g : Segment) : Cutting :=
  { c with start := none, segments := g :: c.segments }

/-- Reads the character `ch` at `i`, which belongs to the segment from `start` on. -/
def Cutting.read (s : Scanned) (inType : Bool) (c : Cutting) (start i : Nat) (ch : Char) :
    Cutting :=
  if ch == '(' || ch == '[' || ch == '{' then { c with depth := c.depth + 1 }
  else if ch == ')' || ch == ']' || ch == '}' then { c with depth := c.depth - 1 }
  else if inType && ch == '<' then { c with angle := c.angle + 1 }
  else if inType && ch == '>' && 0 < c.angle && !s.masked.hasAt (i - 1) '=' then
    { c with angle := c.angle - 1 }
  else if c.depth == 0 && c.angle == 0 then
    if ch == ',' || ch == ';' then
      c.push { start, stop := s.prevCode i start, separator := some (ch, i) }
    else if ch == '\n' && inType then
      let stop := s.prevCode i start
      if start < stop && !goesOn s start stop i then c.push { start, stop } else c
    else c
  else c

/-- Goes on to the character at `i`. -/
def Cutting.step (s : Scanned) (inType : Bool) (c : Cutting) (i : Nat) : Cutting :=
  match s.masked[i]? with
  | none => c
  | some ch =>
    match c.start with
    | some start => c.read s inType start i ch
    | none =>
      if Text.isSpace ch || ch == ',' || ch == ';' then c
      else { c with start := some i }.read s inType i i ch

/-- The segments of the body from `start` up to `stop`. -/
def segments (s : Scanned) (start stop : Nat) (inType : Bool) : List Segment :=
  let c := (List.range' start (stop - start)).foldl (Cutting.step s inType) {}
  let last := match c.start with
    | none => []
    | some from_ =>
      let finish := s.prevCode stop from_
      if from_ < finish then [{ start := from_, stop := finish : Segment }] else []
  c.segments.reverse ++ last

/-! ## Reading a member -/

/-- What a member is, before its comments and its children are known; `block` is the
opening bracket of an object value. -/
structure Shape where
  info : MemberInfo
  block : Option Nat := none

/-- The opening bracket of a value that is one block up to the end of the member. -/
def blockAt? (s : Scanned) (valueAt stop : Nat) : Option Nat :=
  if s.masked.hasAt valueAt '{' && Brackets.close? Brackets.all s.masked valueAt == some (stop - 1)
  then some valueAt
  else none

/-- Reads the member of a segment: a spread, an accessor, a property, a method, a shorthand,
or anything else as it stands. -/
def shapeOf (s : Scanned) (g : Segment) (inType : Bool) : Shape :=
  let a := g.start
  let b := g.stop
  let text := s.source.cut a b
  let base : MemberInfo :=
    { name := "", line := s.lineAt a, fullText := text, separator := g.separatorText
      span := some (s.span a b) }
  let named (m : Pattern.Found) := s.source.cut (m.startOf "name") (m.stopOf "name")
  let opaqueName := Text.squeeze text
  if (spread.matchAt? s.masked a b).isSome then
    { info := { base with
        name := opaqueName, isSpread := true
        value := .text (Text.strip (s.source.cut (a + 3) b)) } }
  else match accessor.matchAt? s.masked a b with
  | some m =>
    let isGetter := s.masked.standsAt (m.startOf "kind") ['g']
    { info := { base with
        name := named m, kind := if isGetter then .getter else .setter
        value := .text (Text.strip (s.source.cut (m.stop - 1) b)) } }
  | none => match property.matchAt? s.masked a b with
  | some m =>
    let isIndex := inType
      && (indexSignature.fullMatch? s.masked (m.startOf "name") (m.stopOf "name")).isSome
    let valueAt := s.nextCode m.stop b
    { info := { base with
        name := named m, optional := m.has "optional" && s.masked.hasAt (m.startOf "optional") '?'
        kind := if isIndex then .signature else .property
        value := .text (s.source.cut valueAt b) }
      block := blockAt? s valueAt b }
  | none => match method.matchAt? s.masked a b with
  | some m =>
    { info := { base with
        name := named m, optional := m.has "optional", kind := .method
        value := .text (Text.strip (s.source.cut (m.stop - 1) b)) } }
  | none =>
    if (identifier.fullMatch? s.masked a b).isSome then
      { info := { base with name := text, value := .text text } }
    else { info := { base with name := opaqueName, value := .text text, kind := .signature } }

/-! ## Members with their comments -/

/-- Reads the body between two brackets: its members and the comments left in it. -/
abbrev BodyReader := (openAt closeAt : Nat) → Claiming (List Member × List Comment)

/-- A member without its comments; the members of an object value are read with `body`. -/
def memberOfShape (s : Scanned) (body : BodyReader) (g : Segment) (shape : Shape) :
    Claiming Member :=
  match shape.block with
  | none => return .leaf shape.info
  | some openAt => do
    let (children, dangling) ← body openAt (g.stop - 1)
    return .group { shape.info with
      dangling, hasNestedObject := true, container := .braces
      nestedInline := s.onOneLine openAt g.stop
      body := some (s.span (openAt + 1) (g.stop - 1)) } children

/-- One member with its comments, and the offset from which the next one may take some. -/
def memberOf (s : Scanned) (body : BodyReader) (inType : Bool) (closeAt : Nat) (g : Segment)
    (floor : Nat) : Claiming (Member × Nat) := do
  let leading ← takeLeading s g.start floor
  let member ← memberOfShape s body g (shapeOf s g inType)
  let _ ← takeInside g.start g.stop
  let early ← match g.separator with
    | some (_, place) => takeInside g.stop place
    | none => pure []
  let trailing := early ++ (← takeTrailing s g.after closeAt)
  let stop := endOf trailing g.after
  return (member.mapInfo fun i => { i with
    comments := leading, trailingComments := trailing
    trailingText := trailingText s.source g.after trailing
    unit := some (s.span (startOf leading g.start) stop) }, stop)

/-- The members of segments, one after the other. -/
def membersFrom (s : Scanned) (body : BodyReader) (inType : Bool) (closeAt : Nat) :
    List Segment → (floor : Nat) → Claiming (List Member)
  | [], _ => return []
  | g :: rest, floor => do
    let (member, floor) ← memberOf s body inType closeAt g floor
    return member :: (← membersFrom s body inType closeAt rest floor)

/-- Reads a body; `fuel` bounds the depth of object values. -/
def readBody (s : Scanned) (inType : Bool) : (fuel : Nat) → BodyReader
  | 0, _, _ => return ([], [])
  | fuel + 1, openAt, closeAt => do
    let members ← membersFrom s (readBody s inType fuel) inType closeAt
      (segments s (openAt + 1) closeAt inType) (openAt + 1)
    return (members, ← takeInside (openAt + 1) closeAt)

end MemberOrder.Script
