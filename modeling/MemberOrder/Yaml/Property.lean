/-
  Node properties and directives: anchors, aliases, tags, and the lines in front of a
  document that start with a percent sign.
-/
import MemberOrder.Text.Digit
import MemberOrder.Yaml.ScalarSource
import MemberOrder.Yaml.Token

namespace MemberOrder.Yaml

/-- A character of the name of an anchor. -/
def isAnchorChar (c : Char) : Bool :=
  let n := c.toNat
  !isFlowIndicator c
    && ((0x21 ≤ n && n ≤ 0x7E) || (0xA0 ≤ n && n ≤ 0xD7FF)
      || (0xE000 ≤ n && n ≤ 0xFFFD && n != 0xFEFF) || 0x10000 ≤ n)

/-- A character of a tag. The hash sign is one in newer versions only. -/
def isUriChar (newer : Bool) (c : Char) : Bool :=
  c.isAlphanum || "-;/?:@&=+$,_.!~*'()[]%".toList.contains c || (newer && c == '#')

/-- A character of the handle of a tag. -/
def isHandleChar (c : Char) : Bool := c.isAlphanum || c == '-' || c == '_'

/-- A character of the name of a directive. -/
def isDirectiveChar (c : Char) : Bool := c.isAlphanum || "-_:.".toList.contains c

namespace Cursor

/-- Reads the name after the mark of an anchor or an alias. -/
def anchorName (c : Cursor) : Except Fault (String × Cursor) :=
  let (name, rest) := c.step.span isAnchorChar
  if name.isEmpty then .error (c.step.fault (.nameCharacter c.step.head))
  else if endsWord rest.head || isFlowIndicator rest.head then
    .ok (String.ofList name, rest)
  else .error (rest.fault (.nameCharacter rest.head))

/-- The bytes of a run of percent escapes. -/
def uriBytes : (fuel : Nat) → Cursor → Except Fault (List UInt8 × Cursor)
  | 0, c => .ok ([], c)
  | fuel + 1, c =>
    if c.head != '%' then .ok ([], c)
    else
      match [c.peek 1, c.peek 2].find? fun d => (hexValue? d).isNone with
      | some stray => .error (c.step.fault (.uriDigits stray))
      | none => do
        let byte := UInt8.ofNat (hexNumber [c.peek 1, c.peek 2])
        let (more, c) ← uriBytes fuel (c.advance 3)
        return (byte :: more, c)

/-- Reads the characters of a tag. Percent escapes stay as they are, but they have to stand
for a text. -/
def uriRest (newer : Bool) : (fuel : Nat) → Cursor → Except Fault (List Char × Cursor)
  | 0, c => .ok ([], c)
  | fuel + 1, c =>
    if c.head == '%' then do
      let (bytes, rest) ← uriBytes fuel c
      match Utf8.decode bytes with
      | .error fault => throw (c.fault (.uriBytes fault))
      | .ok _ =>
        let (more, last) ← uriRest newer fuel rest
        return (c.rest.take (3 * bytes.length) ++ more, last)
    else if isUriChar newer c.head then do
      let (more, rest) ← uriRest newer fuel c.step
      return (c.head :: more, rest)
    else .ok ([], c)

/-- Reads a tag's address, which is not empty. -/
def uri (c : Cursor) (newer : Bool) : Except Fault (String × Cursor) := do
  let (cs, rest) ← uriRest newer (c.rest.length + 1) c
  if cs.isEmpty then throw (c.fault (.tagUri c.head))
  return (String.ofList cs, rest)

/-- Reads the handle of a tag: a name between exclamation marks. -/
def handle (c : Cursor) : Except Fault (String × Cursor) :=
  let (name, rest) := c.step.span isHandleChar
  if c.head != '!' then .error (c.fault (.tagHandle c.head))
  else if c.peek 1 == ' ' then .ok ("!", c.step)
  else if rest.head == '!' then .ok ("!" ++ String.ofList name ++ "!", rest.step)
  else .error (rest.fault (.tagHandle rest.head))

/-- Reads a tag: its handle, where it has one, and its suffix. -/
def tag (c : Cursor) (newer : Bool) : Except Fault ((Option String × String) × Cursor) := do
  let (short, c) := if c.peek 1 == '!' then ("!!", c.step) else ("!", c)
  let next := c.peek 1
  let (value, rest) ←
    if next == '<' then do
      let (suffix, c) ← (c.advance 2).uri newer
      if c.head != '>' then throw (c.fault (.tagClose c.head))
      pure ((none, suffix), c.step)
    else if endsWord next then pure ((none, short), c.step)
    else do
      let named := (c.step.rest.takeWhile (!endsProperty ·)).contains '!'
      let (handle, c) ← if named then c.handle else pure (short, c.step)
      let (suffix, c) ← c.uri newer
      pure ((some handle, suffix), c)
  if endsProperty rest.head then return (value, rest)
  throw (rest.fault (.tagRest rest.head))

/-- Reads a number of a version. -/
def versionNumber (c : Cursor) : Except Fault (Nat × Cursor) :=
  let (digits, rest) := c.span Char.isDigit
  if digits.isEmpty then .error (c.fault (.versionNumber c.head))
  else .ok ((Text.readDecimal? digits).getD 0, rest)

/-- Reads a version. -/
def version (c : Cursor) : Except Fault (Directive × Cursor) := do
  let (major, c) ← (c.skip (· == ' ')).versionNumber
  if c.head != '.' then throw (c.fault (.versionRest c.head))
  let (minor, c) ← c.step.versionNumber
  if endsProperty c.head then return (.version major minor, c)
  throw (c.fault (.versionRest c.head))

/-- Reads the definition of a handle. -/
def handleDefinition (c : Cursor) (newer : Bool) : Except Fault (Directive × Cursor) := do
  let (handle, c) ← (c.skip (· == ' ')).handle
  if c.head != ' ' then throw (c.fault (.tagRest c.head))
  let (start, c) ← (c.skip (· == ' ')).uri newer
  if endsProperty c.head then return (.handle handle start, c)
  throw (c.fault (.tagRest c.head))

/-- Reads a directive with the rest of its line. -/
def directive (c : Cursor) (newer : Bool) : Except Fault ((Directive × Cursor) × Cursor) := do
  let (name, c) := c.step.span isDirectiveChar
  if name.isEmpty || !endsProperty c.head then throw (c.fault (.nameCharacter c.head))
  let (d, c) ← match String.ofList name with
    | "YAML" => c.version
    | "TAG" => c.handleDefinition newer
    | other => pure (.other other, c.skip (!endsLine ·))
  return ((d, c), (← c.restOfLine).2)

end Cursor

end MemberOrder.Yaml
