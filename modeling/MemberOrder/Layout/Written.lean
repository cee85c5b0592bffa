/-
  Writing an entity: dealt into its slots or typed anew, with the line endings that the
  options ask for.
-/
import MemberOrder.Layout.Slots
import MemberOrder.Options.Basic

/-!
Retyped layout: the body of an entity written line by line. It serves options that ask for
a layout the source does not have.
-/

namespace MemberOrder.Layout

/-- A blank line where a group ends and blank lines between groups are wanted. -/
def groupBreak (s : Setting) (previous : Option String) (group : String) : List String :=
  if s.options.blankLinesBetweenGroups && previous.any (· != group) then [""] else []

/-- The lines of one member: its comments, then the member, or the head, the lines inside
and the end of its block. -/
def memberLines (s : Setting) (indent : String) (width : Nat) (tail : String) (m : Member)
    (inside : List String) : List String :=
  let comments := (writeLeading s.rules.comments s.options indent m.info.comments).map (indent ++ ·)
  let body :=
    match m.info.span, m.info.body with
    | some span, some body =>
      if m.children.isEmpty then [indent ++ s.rules.retype s.options m width ++ tail]
      else
        let (start, stop) := bounds body m.children
        let head := Text.trimRight (s.excerpt.slice span.start start)
        let close := Text.trimLeft (s.excerpt.slice stop span.stop)
        (indent ++ String.ofList head) :: inside ++ [indent ++ String.ofList close ++ tail]
    | _, _ => [indent ++ s.rules.retype s.options m width ++ tail]
  comments ++ body

/-- The lines of members from the place `slot` on, each with the lines inside it. -/
def linesFrom (s : Setting) (indent : String) (width : Nat) (separators : List String) :
    (slot : Nat) → (previous : Option String) → List (Member × List String) → List String
  | _, _, [] => []
  | slot, previous, (m, inside) :: rest =>
    let group := s.rules.group m.info
    let tail := slotSeparator s m.info.separator slot separators
      ++ writeTrailing s.rules.comments s.options m.info.trailingComments
    groupBreak s previous group ++ memberLines s indent width tail m inside
      ++ linesFrom s indent width separators (slot + 1) (some group) rest

/-- The lines of a body: its members, each with the lines inside it, then the comments that
belong to none of them. -/
def bodyLinesOf (s : Setting) (indent : String) (dangling : List Comment)
    (ms : List (Member × List String)) : List String :=
  let members := ms.map (·.1)
  let separators := (sourceOrder members).map (·.info.separator)
  linesFrom s indent (s.rules.nameWidth members) separators 0 none ms
    ++ (writeLeading s.rules.comments s.options indent dangling).map (indent ++ ·)

mutual

/-- The lines inside the block of a member, indented by `indent`. -/
def linesInside (s : Setting) (level indent : String) : Member → List String
  | .leaf _ => []
  | .group i children =>
    bodyLinesOf s indent i.dangling (linesInsideEach s level (indent ++ level) children)

/-- Members with the lines inside each of them. -/
def linesInsideEach (s : Setting) (level indent : String) :
    List Member → List (Member × List String)
  | [] => []
  | m :: rest => (m, linesInside s level indent m) :: linesInsideEach s level indent rest

end

/-- The lines of an entity's body. -/
def entityLines (s : Setting) (e : Entity) (level indent : String) : List String :=
  bodyLinesOf s indent e.dangling (linesInsideEach s level (indent ++ level) e.members)

/-- Lines joined by line feeds. -/
def joinLines (lines : List String) : List Char := Text.join ['\n'] (lines.map String.toList)

/-- The body of an entity written anew: without a header its members stand where it starts;
on one line, between blanks; else on lines of their own. -/
def retypedBody (s : Setting) (e : Entity) (body : Span) : Except LayoutError (List Char) :=
  if e.members.isEmpty then
    let (start, stop) := bounds body []
    .ok (s.excerpt.slice start stop)
  else do
    let level ← indentUnit s.options (some (e.indent, e.baseIndent))
    if e.header.isEmpty then
      return (joinLines (entityLines s e level e.indent)).drop e.indent.length
    else if e.inline && s.options.preserveFormatting then
      let lines := (entityLines s e level "").map fun line => Text.trim line.toList
      return ' ' :: Text.join [' '] (lines.filter (!·.isEmpty)) ++ [' ']
    else
      let lines := '\n' :: joinLines (entityLines s e level (e.baseIndent ++ level))
      return if s.rules.breaksBeforeFooter then lines ++ '\n' :: e.baseIndent.toList else lines

/-- Replaces comments in the text before a body, last first. -/
def replaceComments (s : Setting) (baseIndent : String) (head : List Char) :
    (comments : List Comment) → List Char
  | [] => head
  | c :: rest =>
    let out := replaceComments s baseIndent head rest
    let styled := writeComment s.rules.comments s.options.commentStyle baseIndent c
    out.take (c.offset - s.excerpt.base) ++ styled.toList ++ out.drop (c.stop - s.excerpt.base)

/-- The text before a body, with the leading comments restyled or dropped. -/
def retypedHead (s : Setting) (e : Entity) (start : Nat) : List Char :=
  let head := s.excerpt.sliceTo start
  let comments := e.leading.filter fun c => s.excerpt.base ≤ c.offset && c.stop ≤ start
  match comments.getLast? with
  | none => head
  | some last =>
    if s.options.commentsEnabled then replaceComments s e.baseIndent head comments
    else Text.trimLeft (head.drop (last.stop - s.excerpt.base))

/-- An entity with its body written anew. -/
def retypedEntity (s : Setting) (e : Entity) (body : Span) : Except LayoutError (List Char) := do
  let (start, stop) := bounds body e.members
  let inside ← retypedBody s e body
  return retypedHead s e start ++ inside ++ s.excerpt.sliceFrom stop

end MemberOrder.Layout

/-! ## Writing an entity -/

namespace MemberOrder.Layout

/-! ## Line endings -/

/-- Counts the line breaks of two characters and those of a line feed alone; `afterReturn`
says whether the character before is a carriage return. -/
def countBreaks : (afterReturn : Bool) → List Char → Nat × Nat
  | _, [] => (0, 0)
  | afterReturn, c :: rest =>
    let (pairs, lone) := countBreaks (c == '\r') rest
    if c == '\n' then
      if afterReturn then (pairs + 1, lone) else (pairs, lone + 1)
    else (pairs, lone)

/-- The line ending of a text: two characters only where that is the majority. -/
def detectLineEnding (cs : List Char) : List Char :=
  let (pairs, lone) := countBreaks false cs
  if lone < pairs then ['\r', '\n'] else ['\n']

/-- The line ending that the options ask for. -/
def lineEndingFor (o : Options) (cs : List Char) : List Char :=
  match o.lineEnding with
  | .lf => ['\n']
  | .crlf => ['\r', '\n']
  | .auto => detectLineEnding cs

/-- Writes every line break as `ending`. -/
def withLineEnding (ending : List Char) : List Char → List Char
  | [] => []
  | '\r' :: '\n' :: rest => ending ++ withLineEnding ending rest
  | c :: rest =>
    if c == '\n' then ending ++ withLineEnding ending rest else c :: withLineEnding ending rest

/-! ## Entities -/

/-- Applies the line endings that the options ask for. -/
def withOptionsEnding (o : Options) (source rendered : List Char) : List Char :=
  if o.lineEnding == .auto then rendered else withLineEnding (lineEndingFor o source) rendered

/-- The text of an entity whose place in the source is known. -/
def writeBlock (rules : Rules) (o : Options) (e : Entity) : Except LayoutError String :=
  match e.span, e.body with
  | some span, some body => do
    let text := Text.ofString e.sourceText
    let s : Setting := { rules, options := o, kind := e.kind, excerpt := ⟨text, span.start⟩ }
    let rendered ←
      if synthesizes rules o then retypedEntity s e body
      else if reordered e.members then pure (dealtEntity s body e.members)
      else pure text.toList
    return String.ofList (withOptionsEnding o text.toList rendered)
  | _, _ => .error (.noPositions e.name)

end MemberOrder.Layout
