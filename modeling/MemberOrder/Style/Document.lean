/-
  The entities of a style sheet. A block of declarations is one entity. A block that mixes
  declarations with other things gives one entity per run of declarations, so that no two
  entities overlap. A keyframes block is one entity whose members are its steps.
-/
import MemberOrder.Model.Entity
import MemberOrder.Source.Attachment
import MemberOrder.Style.Indented
import MemberOrder.Style.Items

namespace MemberOrder.Style

open Attachment

/-- A style sheet as it is scanned, and the source that its entities point into. For the
indented dialect the scanned text is the decorated one. -/
structure Sheet where
  scanned : Scanned
  source : Text
  toSource : Nat → Nat
  fileType : FileType

namespace Sheet

/-- The source text between two scanned offsets. -/
def text (d : Sheet) (start stop : Nat) : String :=
  d.source.cut (d.toSource start) (d.toSource stop)

/-- The span of the source between two scanned offsets. -/
def span (d : Sheet) (start stop : Nat) : Span :=
  ⟨d.toSource start, d.toSource stop, d.scanned.lineAt start,
    d.scanned.lineAt (max start (stop - 1))⟩

/-- Whether the sheet is in the indented dialect. -/
def isIndented (d : Sheet) : Bool := d.fileType == .sass

/-- What may stand between a declaration and its trailing comment: the brackets that
decorate the indented dialect. -/
def trailingSkip (d : Sheet) : List Char := if d.isIndented then ['}'] else []

/-- Whether no line feed lies between two scanned offsets. -/
def onOneLine (d : Sheet) (start stop : Nat) : Bool := d.scanned.onOneLine start stop

end Sheet

/-! ## Declarations -/

/-- The record of a declaration, without comments. -/
def declarationInfo (d : Sheet) (start stop : Nat) (semicolon : Option Nat) : MemberInfo :=
  let s := d.scanned
  match declaration.matchAt? s.masked start s.masked.size with
  | none => { name := "" }
  | some m =>
    let name := d.text (m.startOf "name") (m.stopOf "name")
    let value := d.text (s.nextCode m.stop stop) stop
    { name
      value := .text value
      line := s.lineAt start
      fullText := d.text start stop
      separator := if d.isIndented || semicolon.isNone then "" else ";"
      important := importance.occurs value
      vendorPrefix := vendorMark? name
      span := some (d.span start stop) }

/-- The source text from the end of an item through its trailing comments. -/
def trailingTextOf (d : Sheet) (after : Nat) (trailing : List Comment) : String :=
  match trailing.getLast? with
  | none => ""
  | some last => if trailing.any (·.offset < after) then "" else d.text after last.stop

/-- A declaration with its comments, and the offset from which the next one may take some. -/
def declarationMember (d : Sheet) (start stop : Nat) (semicolon : Option Nat)
    (floor limit : Nat) : Claiming (Member × Nat) := do
  let s := d.scanned
  let after := match semicolon with
    | some place => place + 1
    | none => stop
  let leading ← takeLeading s start floor
  let _ ← takeInside start stop
  let early ← match semicolon with
    | some place => takeInside stop place
    | none => pure []
  let trailing := early ++ (← takeTrailing s after limit d.trailingSkip)
  let last := endOf trailing after
  return (.leaf { declarationInfo d start stop semicolon with
    comments := leading, trailingComments := trailing
    trailingText := trailingTextOf d after trailing
    unit := some (d.span (startOf leading start) last) }, last)

/-- The declarations among items, with their comments; `limit` bounds trailing comments. -/
def declarationsFrom (d : Sheet) (limit : Nat) : List Item → (floor : Nat) → Claiming (List Member)
  | [], _ => return []
  | .declaration start stop semicolon :: rest, floor => do
    let (member, floor) ← declarationMember d start stop semicolon floor limit
    return member :: (← declarationsFrom d limit rest floor)
  | .statement _ _ _ :: rest, floor => declarationsFrom d limit rest floor
  | .block _ _ _ _ :: rest, floor => declarationsFrom d limit rest floor

/-! ## Entities -/

/-- The trailing comments of the last member. -/
def lastTrailing (ms : List Member) : List Comment :=
  match ms.getLast? with
  | some m => m.info.trailingComments
  | none => []

/-- The specificity of a rule. -/
def specificityOf (selector : String) : Option Nat :=
  if kindOf selector == .cssRule then some (specificity selector) else none

/-- The entity of a block that holds declarations only. -/
def ruleEntity (d : Sheet) (start openAt closeAt : Nat) (selector : String) (leading : List Comment)
    (starts : List Nat) (members : List Member) (dangling : List Comment) (media : Option String) :
    Entity :=
  let s := d.scanned
  let first := startOf leading start
  let last := endOf (lastTrailing members) (closeAt + 1)
  { kind := kindOf selector
    name := selector
    members
    startLine := s.lineAt first
    endLine := s.lineAt (last - 1)
    leading
    sourceText := d.text first last
    specificity := specificityOf selector
    mediaQuery := media
    span := some (d.span first last)
    body := some (d.span (openAt + 1) closeAt)
    header := d.text start (openAt + 1)
    footer := d.text closeAt (closeAt + 1)
    indent := s.indentOfFirst starts
    baseIndent := s.indentOf start
    inline := d.onOneLine openAt closeAt
    dangling
    fileType := d.fileType }

/-- The entity of a run of declarations; it has no brackets of its own. -/
def runEntity (d : Sheet) (run : List Item) (floor : Nat) (selector : String)
    (media : Option String) : Claiming Entity := do
  let s := d.scanned
  let limit := (run.getLast?.map Item.after).getD floor
  let lineStop := (s.source.find? ['\n'] limit).getD s.source.size
  let members ← declarationsFrom d lineStop run floor
  let start := (run.head?.map Item.start).getD floor
  let first := startOf ((members.head?.map (·.info.comments)).getD []) start
  let last := endOf (lastTrailing members) limit
  let dangling ← takeInside first last
  return {
    kind := kindOf selector
    name := selector
    members
    startLine := s.lineAt first
    endLine := s.lineAt (last - 1)
    sourceText := d.text first last
    specificity := specificityOf selector
    mediaQuery := media
    span := some (d.span first last)
    body := some (d.span first last)
    indent := s.indentOf start
    baseIndent := s.indentOf start
    inline := s.lineAt first == s.lineAt (last - 1)
    dangling
    fileType := d.fileType }

/-- A step of a keyframes block, and the offset from which the next one may take comments. -/
def stepMember (d : Sheet) (start stop openAt closeAt : Nat) (floor limit : Nat) :
    Claiming (Member × Nat) := do
  let s := d.scanned
  let leading ← takeLeading s start floor
  let _ ← takeInside start openAt
  let (inner, _) := items s (openAt + 1) closeAt
  let declarations ← declarationsFrom d closeAt inner (openAt + 1)
  let dangling ← takeInside (openAt + 1) closeAt
  let after := closeAt + 1
  let trailing ← takeTrailing s after limit d.trailingSkip
  let last := endOf trailing after
  let info : MemberInfo := {
    name := Text.squeeze (d.text start stop)
    value := .text (d.text openAt (closeAt + 1))
    comments := leading
    trailingComments := trailing
    trailingText := match trailing.getLast? with
      | some c => d.text after c.stop
      | none => ""
    line := s.lineAt start
    fullText := d.text start (closeAt + 1)
    hasNestedObject := true
    span := some (d.span start (closeAt + 1))
    unit := some (d.span (startOf leading start) last)
    body := some (d.span (openAt + 1) closeAt)
    container := .braces
    nestedInline := d.onOneLine openAt closeAt
    header := d.text start (openAt + 1)
    dangling }
  return (.group info declarations, last)

/-- The steps among items. -/
def stepsFrom (d : Sheet) (limit : Nat) : List Item → (floor : Nat) → Claiming (List Member)
  | [], _ => return []
  | .block start stop openAt closeAt :: rest, floor => do
    let (member, floor) ← stepMember d start stop openAt closeAt floor limit
    return member :: (← stepsFrom d limit rest floor)
  | .declaration _ _ _ :: rest, floor => stepsFrom d limit rest floor
  | .statement _ _ _ :: rest, floor => stepsFrom d limit rest floor

/-- The entity of a keyframes block. -/
def keyframesEntity (d : Sheet) (start openAt closeAt : Nat) (selector : String)
    (leading : List Comment) (steps : List Item) (media : Option String) : Claiming Entity := do
  let s := d.scanned
  let members ← stepsFrom d closeAt steps (openAt + 1)
  let dangling ← takeInside (openAt + 1) closeAt
  let first := startOf leading start
  let t := Text.ofString selector
  return {
    kind := .cssKeyframes
    name := selector
    members
    startLine := s.lineAt first
    endLine := s.lineAt closeAt
    leading
    sourceText := d.text first (closeAt + 1)
    mediaQuery := media
    keyframesName := (keyframes.matchAt? t 0 t.size).map fun m =>
      t.cut (m.startOf "name") (m.stopOf "name")
    span := some (d.span first (closeAt + 1))
    body := some (d.span (openAt + 1) closeAt)
    header := d.text start (openAt + 1)
    footer := d.text closeAt (closeAt + 1)
    indent := s.indentOfFirst (steps.map Item.start)
    baseIndent := s.indentOf start
    inline := d.onOneLine openAt closeAt
    dangling
    fileType := d.fileType }

/-- Reads a nested block: the block, the offset from which it may take comments, and the
media query around it. -/
abbrev BlockReader := Item → (floor : Nat) → (media : Option String) → Claiming (List Entity)

/-- The entity of a run of declarations, given last first, unless it is empty. -/
def endRun (d : Sheet) (run : List Item) (runFloor : Nat) (selector : String)
    (media : Option String) : Claiming (List Entity) := do
  if run.isEmpty then return []
  else return [← runEntity d run.reverse runFloor selector media]

/-- The entities of a mixed body. The current run of declarations is given last first, with
the offset from which it may take comments; `floor` is that of the next item. -/
def mixedFrom (d : Sheet) (nested : BlockReader) (selector : String) (media : Option String) :
    List Item → (run : List Item) → (runFloor floor : Nat) → Claiming (List Entity)
  | [], run, runFloor, _ => endRun d run runFloor selector media
  | child :: rest, run, runFloor, floor => do
    let next := max floor child.after
    if child.isDeclaration then
      let runFloor := if run.isEmpty then floor else runFloor
      mixedFrom d nested selector media rest (child :: run) runFloor next
    else
      let before ← endRun d run runFloor selector media
      let inside ← if child.isBlock then nested child floor media else pure []
      let after ← mixedFrom d nested selector media rest [] runFloor next
      return before ++ inside ++ after

/-- The entities of a block; `fuel` bounds the depth of blocks. -/
def readBlock (d : Sheet) : (fuel : Nat) → BlockReader
  | fuel + 1, .block start stop openAt closeAt, floor, media => do
    let s := d.scanned
    let selector := Text.squeeze (d.text start stop)
    let leading ← takeLeading s start floor
    let _ ← takeInside start openAt
    let (inner, _) := items s (openAt + 1) closeAt
    if keyframes.leads selector && !inner.isEmpty && inner.all Item.isBlock then
      return [← keyframesEntity d start openAt closeAt selector leading inner media]
    else
      let media := if Text.startsWith (Text.lower selector) "@media" then some selector else media
      if inner.all Item.isDeclaration then
        let members ← declarationsFrom d closeAt inner (openAt + 1)
        let dangling ← takeInside (openAt + 1) closeAt
        if members.isEmpty then return []
        else return [ruleEntity d start openAt closeAt selector leading (inner.map Item.start)
          members dangling media]
      else mixedFrom d (readBlock d fuel) selector media inner [] (openAt + 1) (openAt + 1)
  | _, _, _, _ => return []

/-- The entities of the items of a sheet. -/
def entitiesFrom (d : Sheet) : List Item → (floor : Nat) → Claiming (List Entity)
  | [], _ => return []
  | item :: rest, floor => do
    let found ← if item.isBlock then readBlock d (d.scanned.source.size + 1) item floor none
      else pure []
    return found ++ (← entitiesFrom d rest item.after)

/-! ## Comments of the indented dialect -/

/-- Moves a comment from the decorated text to the source. -/
def relocate (toSource : Nat → Nat) (c : Comment) : Comment :=
  { c with offset := toSource c.offset, stop := toSource c.stop }

/-- Moves the comments of a member, its children left aside. -/
def relocateInfo (toSource : Nat → Nat) (i : MemberInfo) : MemberInfo :=
  { i with
    comments := i.comments.map (relocate toSource)
    trailingComments := i.trailingComments.map (relocate toSource)
    dangling := i.dangling.map (relocate toSource) }

mutual

/-- Moves the comments of a member. -/
def relocateMember (toSource : Nat → Nat) : Member → Member
  | .leaf i => .leaf (relocateInfo toSource i)
  | .group i children => .group (relocateInfo toSource i) (relocateMembers toSource children)

/-- Moves the comments of members. -/
def relocateMembers (toSource : Nat → Nat) : List Member → List Member
  | [] => []
  | m :: rest => relocateMember toSource m :: relocateMembers toSource rest

end

/-- Moves the comments of an entity. -/
def relocateEntity (toSource : Nat → Nat) (e : Entity) : Entity :=
  { e with
    leading := e.leading.map (relocate toSource)
    dangling := e.dangling.map (relocate toSource)
    members := relocateMembers toSource e.members }

/-! ## Reading -/

/-- The sheet of a source. -/
def sheetOf (fileType : FileType) (t : Text) : Sheet :=
  if fileType == .sass then
    let lines := Indented.decorate t.toList
    { scanned := Scanned.scan .scss (Indented.braced lines).toArray
      source := t, toSource := Indented.toSource lines, fileType }
  else
    let profile := if fileType == .css then Profile.css else Profile.scss
    { scanned := Scanned.scan profile t, source := t, toSource := id, fileType }

/-- A problem as it is reported. -/
def readError (d : Sheet) (p : ItemProblem) : ReadError :=
  let dialect := if d.isIndented then "SASS" else "CSS"
  match p with
  | .unexpectedBrace line => .unexpectedBrace dialect line
  | .unclosedBlock line => .unclosedBlock dialect line

/-- Reads a style sheet. -/
def read (fileType : FileType) (t : Text) : Reading :=
  let d := sheetOf fileType t
  let (top, problems) := items d.scanned 0 d.scanned.masked.size
  let (entities, _) := (entitiesFrom d top 0).run d.scanned.comments
  { entities := if d.isIndented then entities.map (relocateEntity d.toSource) else entities
    errors := problems.map (readError d) }

end MemberOrder.Style
