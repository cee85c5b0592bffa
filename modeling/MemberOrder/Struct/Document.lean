/-
  The entities of a Go source: its struct declarations, alone or in a group of types, with
  their fields and the fields of the structs inside.
-/
import MemberOrder.Model.Entity
import MemberOrder.Order.Fields
import MemberOrder.Pattern.Basic
import MemberOrder.Source.Attachment
import MemberOrder.Source.Brackets

/-! The patterns of Go sources: struct declarations and their fields. -/

namespace MemberOrder.Struct

open Pattern

/-- An identifier. -/
def identifier : Pattern := .seq (.one isNameStart) (.span Text.isWord)

/-- Type parameters in brackets. -/
def typeParameters : Pattern := all [char '[', spanNot "]", char ']']

/-- No name or member access ends here. -/
def wordStart : Pattern := notBehind fun c => Text.isWord c || c == '.'

/-- The word that introduces a struct, up to its opening bracket. -/
def structOpening : Pattern := all [word "struct", spaces, char '{']

/-- A struct declaration up to its opening bracket. -/
def structDeclaration : Pattern :=
  all [wordStart, word "type", spaces1, .mark "name" identifier,
    optional (.seq spaces typeParameters), spaces1, structOpening]

/-- The start of a group of type declarations. -/
def typeGroup : Pattern := all [wordStart, word "type", spaces, char '(']

/-- A struct declaration in a group, from the start of its line. -/
def groupedStruct : Pattern :=
  all [atLineStart, .span fun c => c == ' ' || c == '\t', .mark "name" identifier,
    optional typeParameters, spaces1, structOpening]

/-- The grave accent as a text. -/
def grave : String := String.singleton (Char.ofNat 96)

/-- The tags at the end of a field. -/
def tags : Pattern := all [word grave, spanNot grave, word grave, spaces, atEnd]

/-- A field with names and a type. -/
def namedField : Pattern :=
  let more := all [spaces, char ',', spaces, identifier]
  all [.mark "names" (.seq identifier (.many more)), spaces1,
    .mark "type" (.seq (.one fun c => !Text.isSpace c) (.span fun _ => true))]

/-- An embedded field: a type alone. -/
def embeddedField : Pattern :=
  all [optional (char '*'), .one isNameStart, .span fun c => Text.isWord c || c == '.',
    optional typeParameters]

/-- A struct type without a name, behind pointers and array lengths. -/
def anonymousStruct : Pattern :=
  .seq (.many (choice [char '*', word "[]", all [char '[', .span Text.isDecimal, char ']']]))
    structOpening

end MemberOrder.Struct

/-! ## Reading structs -/

namespace MemberOrder.Struct

open Attachment

/-! ## Declarations -/

/-- A struct declaration: where it starts, its name, and its opening bracket. -/
structure Declaration where
  start : Nat
  name : String
  brace : Nat
  deriving Repr, DecidableEq, Inhabited

/-- The order of declarations in a source. -/
def Declaration.le (a b : Declaration) : Bool :=
  if a.start != b.start then a.start < b.start
  else match Order.compareChars a.name.toList b.name.toList with
    | .lt => true
    | .gt => false
    | .eq => a.brace ≤ b.brace

/-- The declaration of a match. -/
def declarationAt (s : Scanned) (start : Nat) (m : Pattern.Found) : Declaration :=
  ⟨start, s.masked.cut (m.startOf "name") (m.stopOf "name"), m.stop - 1⟩

/-- The structs of a group of types, from `pos` up to the end of the group. -/
def groupedFrom (s : Scanned) (close : Nat) : (fuel pos : Nat) → List Declaration
  | 0, _ => []
  | fuel + 1, pos =>
    match groupedStruct.search? s.masked pos close with
    | none => []
    | some m =>
      let brace := m.stop - 1
      let next := match Brackets.close? Brackets.all s.masked brace with
        | some bodyClose => bodyClose + 1
        | none => m.stop
      declarationAt s (s.nextCodeToEnd m.start) m :: groupedFrom s close fuel next

/-- All struct declarations of a source, in order. -/
def declarations (s : Scanned) : List Declaration :=
  let single := (structDeclaration.findAll s.masked).map fun m => declarationAt s m.start m
  let grouped := (typeGroup.findAll s.masked).flatMap fun g =>
    match Brackets.close? Brackets.all s.masked (g.stop - 1) with
    | none => []
    | some close => groupedFrom s close (close + 1) g.stop
  Order.stableSort Declaration.le (single ++ grouped)

/-! ## Fields -/

/-- A field's range in a body, and the semicolon after it. -/
structure Segment where
  start : Nat
  stop : Nat
  semicolon : Option Nat := none
  deriving Repr, DecidableEq, Inhabited

/-- Just past a field and its semicolon. -/
def Segment.after (g : Segment) : Nat :=
  match g.semicolon with
  | some place => place + 1
  | none => g.stop

/-- How far a body has been cut: open brackets, where the current field starts, and the
fields found, last first. -/
structure Cutting where
  depth : Nat := 0
  start : Option Nat := none
  segments : List Segment := []

/-- Reads the character `ch` at `i`, which belongs to the field from `start` on. -/
def Cutting.read (s : Scanned) (c : Cutting) (start i : Nat) (ch : Char) : Cutting :=
  if ch == '(' || ch == '[' || ch == '{' then { c with depth := c.depth + 1 }
  else if ch == ')' || ch == ']' || ch == '}' then { c with depth := c.depth - 1 }
  else if c.depth == 0 && (ch == ';' || ch == '\n') then
    let stop := s.prevCode i start
    let found := if start < stop then
        [{ start, stop, semicolon := if ch == ';' then some i else none : Segment }]
      else []
    { c with start := none, segments := found ++ c.segments }
  else c

/-- Goes on to the character at `i`. -/
def Cutting.step (s : Scanned) (c : Cutting) (i : Nat) : Cutting :=
  match s.masked[i]? with
  | none => c
  | some ch =>
    match c.start with
    | some start => c.read s start i ch
    | none =>
      if Text.isSpace ch || ch == ';' then c else { c with start := some i }.read s i i ch

/-- The fields of the body from `start` up to `stop`. -/
def segments (s : Scanned) (start stop : Nat) : List Segment :=
  let c := (List.range' start (stop - start)).foldl (Cutting.step s) {}
  let last := match c.start with
    | none => []
    | some first =>
      let finish := s.prevCode stop first
      if first < finish then [{ start := first, stop := finish : Segment }] else []
  c.segments.reverse ++ last

/-- What a field is, before its comments and the fields inside it are known; `block` gives
the brackets of a struct type without a name. -/
structure Shape where
  info : MemberInfo
  block : Option (Nat × Nat) := none

/-- The brackets of a struct type that ends the declaration. -/
def blockAt? (s : Scanned) (typeAt stop : Nat) : Option (Nat × Nat) := do
  let m ← anonymousStruct.matchAt? s.masked typeAt stop
  let close ← Brackets.close? Brackets.all s.masked (m.stop - 1)
  if close + 1 == stop then some (m.stop - 1, close) else none

/-- Reads a field: an embedded type, names with a type, or anything else as it stands. -/
def shapeOf (s : Scanned) (g : Segment) : Shape :=
  let tag := tags.search? s.masked g.start g.stop
  let stop := match tag with
    | some m => s.prevCode m.start g.start
    | none => g.stop
  let base : MemberInfo :=
    { name := "", line := s.lineAt g.start, fullText := s.source.cut g.start g.stop
      span := some (s.span g.start g.stop)
      separator := if g.semicolon.isSome then ";" else ""
      structTags := tag.map fun m =>
        let written := Text.trim (s.source.slice m.start g.stop)
        String.ofList (written.drop 1).dropLast }
  let text := s.source.cut g.start stop
  if (embeddedField.fullMatch? s.masked g.start stop).isSome then
    { info := { base with name := text, value := .text text, isEmbedded := true } }
  else match namedField.fullMatch? s.masked g.start stop with
  | none =>
    let name := Text.squeeze text
    { info := { base with name, value := .text name, kind := .signature } }
  | some m =>
    let typeAt := m.startOf "type"
    { info := { base with
        name := Text.squeeze (s.source.cut (m.startOf "names") (m.stopOf "names"))
        value := .text (s.source.cut typeAt stop) }
      block := blockAt? s typeAt stop }

/-- Reads the body between two brackets: its fields and the comments left in it. -/
abbrev BodyReader := (brace close : Nat) → Claiming (List Member × List Comment)

/-- A field without its comments; the fields of a struct inside are read with `body`. -/
def memberOfShape (s : Scanned) (body : BodyReader) (shape : Shape) : Claiming Member :=
  match shape.block with
  | none => return .leaf shape.info
  | some (brace, close) => do
    let (children, dangling) ← body brace close
    return .group { shape.info with
      dangling, hasNestedObject := true, container := .braces
      nestedInline := s.onOneLine brace close
      body := some (s.span (brace + 1) close) } children

/-- One field with its comments, and the offset from which the next one may take some. -/
def memberOf (s : Scanned) (body : BodyReader) (close : Nat) (g : Segment) (floor : Nat) :
    Claiming (Member × Nat) := do
  let leading ← takeLeading s g.start floor
  let member ← memberOfShape s body (shapeOf s g)
  let _ ← takeInside g.start g.stop
  let trailing ← takeTrailing s g.after close
  let stop := endOf trailing g.after
  return (member.mapInfo fun i => { i with
    comments := leading, trailingComments := trailing
    trailingText := trailingText s.source g.after trailing
    unit := some (s.span (startOf leading g.start) stop) }, stop)

/-- The fields of segments, one after the other. -/
def membersFrom (s : Scanned) (body : BodyReader) (close : Nat) :
    List Segment → (floor : Nat) → Claiming (List Member)
  | [], _ => return []
  | g :: rest, floor => do
    let (member, floor) ← memberOf s body close g floor
    return member :: (← membersFrom s body close rest floor)

/-- Reads a body; `fuel` bounds the depth of structs. -/
def readBody (s : Scanned) : (fuel : Nat) → BodyReader
  | 0, _, _ => return ([], [])
  | fuel + 1, brace, close => do
    let members ← membersFrom s (readBody s fuel) close (segments s (brace + 1) close) (brace + 1)
    return (members, ← takeInside (brace + 1) close)

/-! ## Entities -/

/-- The entity of a declaration that ends at `close`. -/
def entityOf (s : Scanned) (fileType : FileType) (d : Declaration) (close floor : Nat) :
    Claiming Entity := do
  let leading ← takeLeading s d.start floor
  let (members, dangling) ← readBody s (s.masked.size + 1) d.brace close
  let start := startOf leading d.start
  return {
    kind := .struct
    name := d.name
    members
    startLine := s.lineAt start
    endLine := s.lineAt close
    leading
    isExported := d.name.toList.head?.any Text.isUpper
    sourceText := s.source.cut start (close + 1)
    span := some (s.span start (close + 1))
    body := some (s.span (d.brace + 1) close)
    header := s.source.cut d.start (d.brace + 1)
    footer := "\x7d"
    indent := s.indentOfFirst (members.filterMap fun m => m.info.span.map (·.start))
    baseIndent := s.indentOf d.start
    inline := s.onOneLine d.brace close
    dangling
    fileType }

/-- The entities of declarations in order, and what is wrong with the rest; declarations
inside an entity are part of it. -/
def entitiesFrom (s : Scanned) (fileType : FileType) :
    List Declaration → (floor : Nat) → Claiming (List Entity × List ReadError)
  | [], _ => return ([], [])
  | d :: rest, floor =>
    if d.start < floor then entitiesFrom s fileType rest floor
    else match Brackets.close? Brackets.all s.masked d.brace with
      | none => do
        let (entities, errors) ← entitiesFrom s fileType rest floor
        return (entities, .unclosedStruct d.name (s.lineAt d.start) :: errors)
      | some close => do
        let e ← entityOf s fileType d close floor
        let (entities, errors) ← entitiesFrom s fileType rest (close + 1)
        return (e :: entities, errors)

/-- Reads a Go source. -/
def read (fileType : FileType) (t : Text) : Reading :=
  let s := Scanned.scan .go t
  let ((entities, errors), _) := (entitiesFrom s fileType (declarations s) 0).run s.comments
  { entities, errors }

end MemberOrder.Struct
