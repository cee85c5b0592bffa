/-
  The entities of a script: interfaces, type literals and object literals at the start of a
  statement.
-/
import MemberOrder.Script.Members

namespace MemberOrder.Script

open Attachment

/-! ## Finding the body of a declaration -/

/-- Whether a closing angle bracket stands at `i`, and not the end of an arrow. -/
def closesAngle (t : Text) (i : Nat) : Bool := t.hasAt i '>' && !(0 < i && t.hasAt (i - 1) '=')

/-- The opening bracket of an interface, from `i` on, within open angle brackets and
parentheses; object types inside those are skipped. -/
def interfaceBody (t : Text) : (fuel i angle paren : Nat) → Option Nat
  | 0, _, _, _ => none
  | fuel + 1, i, angle, paren =>
    match t[i]? with
    | none => none
    | some c =>
      if c == '<' then interfaceBody t fuel (i + 1) (angle + 1) paren
      else if closesAngle t i then interfaceBody t fuel (i + 1) (angle - 1) paren
      else if c == '(' then interfaceBody t fuel (i + 1) angle (paren + 1)
      else if c == ')' then interfaceBody t fuel (i + 1) angle (paren - 1)
      else if c == '{' then
        if angle == 0 && paren == 0 then some i
        else match Brackets.close? Brackets.all t i with
          | none => none
          | some close => interfaceBody t fuel (close + 1) angle paren
      else if (c == ';' || c == '}') && angle == 0 && paren == 0 then none
      else interfaceBody t fuel (i + 1) angle paren

/-- The opening bracket of a type literal, from `i` on, within open angle brackets. -/
def aliasBody (t : Text) : (fuel i angle : Nat) → Option Nat
  | 0, _, _ => none
  | fuel + 1, i, angle =>
    match t[i]? with
    | none => none
    | some c =>
      if c == '<' then aliasBody t fuel (i + 1) (angle + 1)
      else if closesAngle t i then aliasBody t fuel (i + 1) (angle - 1)
      else if c == '=' && angle == 0 && !t.hasAt (i + 1) '>' then
        let brace := t.nextCode (i + 1) t.size
        if t.hasAt brace '{' then some brace else none
      else if (c == ';' || c == '{' || c == '}') && angle == 0 then none
      else aliasBody t fuel (i + 1) angle

/-- Whether an equals sign at `i` assigns. -/
def assigns (t : Text) (i : Nat) : Bool :=
  t.hasAt i '=' && !t.hasAt (i + 1) '=' && !t.hasAt (i + 1) '>'

/-- The value after a type annotation that starts before `i`, within open brackets. -/
def valueAfterType (s : Scanned) (start : Nat) : (fuel i depth : Nat) → Option Nat
  | 0, _, _ => none
  | fuel + 1, i, depth =>
    match s.masked[i]? with
    | none => none
    | some c =>
      if c == '(' || c == '[' || c == '{' || c == '<' then
        valueAfterType s start fuel (i + 1) (depth + 1)
      else if c == ')' || c == ']' || c == '}' then
        if depth == 0 then none else valueAfterType s start fuel (i + 1) (depth - 1)
      else if closesAngle s.masked i then valueAfterType s start fuel (i + 1) (depth - 1)
      else if depth == 0 then
        if assigns s.masked i then some (s.nextCodeToEnd (i + 1))
        else if c == ';' then none
        else if c == '\n' && !goesOn s start i i then none
        else valueAfterType s start fuel (i + 1) depth
      else valueAfterType s start fuel (i + 1) depth

/-- The value that a variable starts with. -/
def initializer (s : Scanned) (start : Nat) : Option Nat :=
  let i := s.nextCodeToEnd start
  if assigns s.masked i then some (s.nextCodeToEnd (i + 1))
  else if s.masked.hasAt i ':' then valueAfterType s start (s.masked.size - i) (i + 1) 0
  else none

/-- The first argument of a call, from `i` up to `stop`, that is an object literal. -/
def objectArgument (t : Text) (stop : Nat) : (fuel i depth : Nat) → (expecting : Bool) → Option Nat
  | 0, _, _, _ => none
  | fuel + 1, i, depth, expecting =>
    if stop ≤ i then none
    else match t[i]? with
    | none => none
    | some c =>
      if Text.isSpace c then objectArgument t stop fuel (i + 1) depth expecting
      else if depth == 0 && c == '{' && expecting then some i
      else
        let depth :=
          if c == '(' || c == '[' || c == '{' then depth + 1
          else if c == ')' || c == ']' || c == '}' then depth - 1
          else depth
        objectArgument t stop fuel (i + 1) depth (depth == 0 && c == ',')

/-- The opening bracket of an object value, and for the argument of a call the parenthesis
that ends the call. -/
def objectValue (s : Scanned) (valueAt : Nat) : Option (Nat × Option Nat) :=
  if s.masked.hasAt valueAt '{' then some (valueAt, none)
  else do
    let m ← call.matchAt? s.masked valueAt s.masked.size
    let paren := m.stop - 1
    let close ← Brackets.close? Brackets.all s.masked paren
    let brace ← objectArgument s.masked close (close - paren) (paren + 1) 0 true
    return (brace, some close)

/-! ## Entities -/

/-- A declaration that was found: its kind and name, its opening bracket, and the
parenthesis that ends the call around it. -/
structure Head where
  kind : EntityKind
  name : String
  openAt : Nat
  callClose : Option Nat := none

/-- The word for a kind of declaration. -/
def kindWord : EntityKind → String
  | .interface => "interface"
  | .typeLiteral => "type"
  | _ => "object"

/-- The declaration at a match, if it has a body. -/
def headOf (s : Scanned) (m : Pattern.Found) : Option Head :=
  let named (label : String) := s.masked.cut (m.startOf label) (m.stopOf label)
  let size := s.masked.size
  if m.has "interface" then do
    let body ← interfaceBody s.masked (size - m.stop) m.stop 0 0
    return ⟨.interface, named "interface", body, none⟩
  else if m.has "type" then do
    return ⟨.typeLiteral, named "type", ← aliasBody s.masked (size - m.stop) m.stop 0, none⟩
  else do
    let name := if m.has "variable" then named "variable" else "default"
    let valueAt ← if m.has "default" then some m.stop else initializer s m.stop
    let (openAt, callClose) ← objectValue s valueAt
    return ⟨.object, name, openAt, callClose⟩

/-- The entity of a declaration whose brackets are known. -/
def entityOf (s : Scanned) (fileType : FileType) (m : Pattern.Found) (head : Head)
    (closeAt floor : Nat) : Claiming Entity := do
  let start := m.start
  let closed := match head.callClose with
    | some close => close + 1
    | none => closeAt + 1
  let stop := match tail.matchAt? s.masked closed s.masked.size with
    | some t => t.stop
    | none => closed
  let inType := head.kind != .object
  let leading ← takeLeading s start floor
  let _ ← takeInside start (head.openAt + 1)
  let (members, dangling) ← readBody s inType (s.masked.size + 1) head.openAt closeAt
  let _ ← takeInside closeAt stop
  let spanStart := startOf leading start
  return {
    kind := head.kind
    name := head.name
    members
    startLine := s.lineAt spanStart
    endLine := s.lineAt (stop - 1)
    leading
    isExported := m.has "export" || m.has "default"
    sourceText := s.source.cut spanStart stop
    span := some (s.span spanStart stop)
    body := some (s.span (head.openAt + 1) closeAt)
    header := s.source.cut start (head.openAt + 1)
    footer := s.source.cut closeAt stop
    indent := s.indentOfFirst (members.filterMap fun m => m.info.span.map (·.start))
    baseIndent := s.indentOf start
    inline := s.onOneLine head.openAt closeAt
    dangling
    fileType }

/-- Whether a statement can start at an offset: at the start of the text, after a semicolon
or a brace, or on a new line that does not go on with the one before. -/
def startsStatement (s : Scanned) (offset : Nat) : Bool :=
  let prev := s.prevCode offset 0
  if prev == 0 then true
  else
    let before (chars : String) := s.masked.testAt (prev - 1) chars.toList.contains
    before ";\x7b\x7d"
      || ((s.masked.slice prev offset).contains '\n' && !before ".,=(+-*/&|?:[<!")

/-- The name of the dialect in messages. -/
def dialect (fileType : FileType) : String :=
  if fileType == .javascript then "JavaScript" else "TypeScript"

/-- The entities from `pos` on, and what is wrong with the declarations in between; no
entity takes a comment before `floor`. -/
def entitiesFrom (s : Scanned) (fileType : FileType) :
    (fuel pos floor : Nat) → Claiming (List Entity × List ReadError)
  | 0, _, _ => return ([], [])
  | fuel + 1, pos, floor =>
    match declaration.search? s.masked pos s.masked.size with
    | none => return ([], [])
    | some m =>
      if !startsStatement s m.start then entitiesFrom s fileType fuel (m.start + 1) floor
      else match headOf s m with
        | none => entitiesFrom s fileType fuel m.stop floor
        | some head =>
          match Brackets.close? Brackets.all s.masked head.openAt with
          | none => do
            let (rest, errors) ← entitiesFrom s fileType fuel m.stop floor
            return (rest, .unclosedDeclaration (dialect fileType) (kindWord head.kind) head.name
              (s.lineAt m.start) :: errors)
          | some closeAt => do
            let e ← entityOf s fileType m head closeAt floor
            let stop := (e.span.map (·.stop)).getD m.stop
            let (rest, errors) ← entitiesFrom s fileType fuel stop stop
            return (e :: rest, errors)

/-- Complains about braces that do not balance. -/
def balanceErrors (s : Scanned) (fileType : FileType) : List ReadError :=
  let opened := s.masked.toList.count '{'
  let closed := s.masked.toList.count '}'
  if opened == closed then [] else [.unbalancedBraces (dialect fileType) opened closed]

/-- Reads a script. -/
def read (fileType : FileType) (t : Text) : Reading :=
  let s := Scanned.scan .typescript t
  let ((entities, errors), _) := (entitiesFrom s fileType (t.size + 1) 0 0).run s.comments
  { entities, errors := errors ++ balanceErrors s fileType }

end MemberOrder.Script
