/-
  What the layout of a language depends on: its comments, its separators and how a member is
  typed anew.
-/
import MemberOrder.Model.Entity
import MemberOrder.Options.Basic
import MemberOrder.Order.Declarations
import MemberOrder.Order.Entries
import MemberOrder.Order.Fields
import MemberOrder.Source.Comment
import MemberOrder.Text.Number

/-! Comments written in the shape that the options ask for, as far as the language knows it. -/

namespace MemberOrder.Layout

/-- The comments a language knows: how a line comment starts, if there is one, and whether
there are block comments. -/
structure CommentForms where
  line : Option String
  block : Bool
  deriving Repr, DecidableEq

/-- Whether a comment can stay as written. -/
def CommentForms.allows (forms : CommentForms) (raw : String) : Bool :=
  if Text.startsWith raw "/*" then forms.block
  else match forms.line with
    | some mark => !mark.isEmpty && Text.startsWith raw mark
    | none => false

/-- A line of a comment's body, without the star that a block comment may start it with. -/
def bodyLine (kind : CommentKind) (line : List Char) : List Char :=
  match kind with
  | .line => Text.trim line
  | .block => Text.trim ((Text.trim line).dropWhile (· == '*'))

/-- The lines of a comment's body that hold anything; one empty line when none does. -/
def bodyLines (c : Comment) : List (List Char) :=
  let lines := ((Text.lines c.text.toList).map (bodyLine c.kind)).filter (!·.isEmpty)
  if lines.isEmpty then [[]] else lines

/-- A comment as one line comment per line of its body. -/
def asLines (mark indent : List Char) (lines : List (List Char)) : List Char :=
  Text.join ('\n' :: indent) (lines.map fun line => Text.trimRight (mark ++ ' ' :: line))

/-- A comment as one block. -/
def asBlock (indent : List Char) (lines : List (List Char)) : List Char :=
  match lines with
  | [line] => ['/', '*', ' '] ++ line ++ [' ', '*', '/']
  | _ =>
    let body := lines.flatMap fun line =>
      Text.trimRight ('\n' :: indent ++ [' ', '*', ' '] ++ line)
    ['/', '*'] ++ body ++ '\n' :: indent ++ [' ', '*', '/']

/-- Writes a comment in a style. Further lines carry `indent`. -/
def writeComment (forms : CommentForms) (style : CommentStyle) (indent : String) (c : Comment) :
    String :=
  if style == .preserve && forms.allows c.raw then c.raw
  else
    let lines := bodyLines c
    let indent := indent.toList
    if forms.line == some "#" || !forms.block then String.ofList (asLines ['#'] indent lines)
    else
      let wantsLines := style == .singleLine || (style == .preserve && c.kind == .line)
      match forms.line with
      | some mark =>
        if wantsLines && !mark.isEmpty then String.ofList (asLines mark.toList indent lines)
        else String.ofList (asBlock indent lines)
      | none => String.ofList (asBlock indent lines)

/-- Leading comments, one text each. -/
def writeLeading (forms : CommentForms) (o : Options) (indent : String) (cs : List Comment) :
    List String :=
  if o.commentsEnabled then cs.map (writeComment forms o.commentStyle indent) else []

/-- Trailing comments, each after a blank. -/
def writeTrailing (forms : CommentForms) (o : Options) (cs : List Comment) : String :=
  if o.commentsEnabled then
    String.ofList (cs.flatMap fun c => ' ' :: (writeComment forms o.commentStyle "" c).toList)
  else ""

end MemberOrder.Layout

/-!
Separators between members, levels of indentation, and the space between a name and its
value.
-/

namespace MemberOrder.Layout

/-- How often a separator occurs. -/
def occurrences (s : String) (seen : List String) : Nat := seen.count s

/-- The most frequent of some separators; of equally frequent ones the first. -/
def mostFrequent (seen : List String) : String :=
  let better (best s : String) := if occurrences best seen < occurrences s seen then s else best
  match seen with
  | [] => ""
  | first :: rest => rest.foldl better first

/-- The separator that members have in common, given the separators in source order: the
most frequent one of those that were not last. Members separated by line breaks alone have
none; a single member says nothing. -/
def commonSeparator (separators : List String) (default : String) : String :=
  if separators.length < 2 then default
  else mostFrequent (separators.dropLast.filter (!·.isEmpty))

/-- The separator after the last member. -/
def finalSeparator (o : Options) (separator comma : String) : String :=
  match o.trailingCommas with
  | .add => if separator.isEmpty then comma else separator
  | .remove => if separator == "," then "" else separator
  | .preserve => separator

/-- How it is reported that a number cannot be written in its layout. -/
def numberMessage : NumberProblem → String
  | .noPoint => "not enough values to unpack (expected 2, got 1)"
  | .noDigit => "string index out of range"

/-- Why an entity cannot be written. -/
inductive LayoutError where
  /-- The entity is known without its place in a source. -/
  | noPositions (name : String)
  /-- The width of a level of indentation is no number. -/
  | widthIsNoNumber (typeName : String)
  /-- A key that consists of digits, after minus signs, is no integer. -/
  | keyIsNoNumber (problem : Text.IntegerProblem)
  /-- A flow collection holds a number that cannot be written. -/
  | flow (name : String) (problem : NumberProblem)
  deriving Repr, DecidableEq

/-- How a layout error is reported. -/
def LayoutError.message : LayoutError → String
  | .noPositions name => "Entity '" ++ name ++ "' carries no source positions"
  | .widthIsNoNumber typeName => "can't multiply sequence by non-int of type '" ++ typeName ++ "'"
  | .keyIsNoNumber problem => problem.message
  | .flow name problem =>
    "Unable to dump flow collection '" ++ name ++ "': " ++ numberMessage problem

/-- The blanks of a level of indentation. -/
def blanksOf : IndentWidth → Except LayoutError String
  | .blanks n => .ok (String.ofList (List.replicate n.toNat ' '))
  | .invalid value => .error (.widthIsNoNumber value.typeName)

/-- The part of a member's indentation that its entity does not have. -/
def ownIndent (indent baseIndent : String) : List Char :=
  if baseIndent.toList.isPrefixOf indent.toList then indent.toList.drop baseIndent.length else []

/-- One level of indentation: as configured, else the entity's own, else blanks. The entity
is known by the indentation of its members and its own. -/
def indentUnit (o : Options) (entity : Option (String × String)) : Except LayoutError String :=
  match o.indentationType with
  | .tabs => .ok "\t"
  | .spaces => blanksOf o.indentationSize
  | .auto =>
    let own := match entity with
      | some (indent, baseIndent) => ownIndent indent baseIndent
      | none => []
    if own.isEmpty then blanksOf o.indentationSize else .ok (String.ofList own)

/-- A name and its value with the spacing of the options; `width` aligns the values. -/
def nameAndValue (o : Options) (name value : String) (width : Nat) (colon : String) : String :=
  match o.propertySpacing with
  | some .spaced => name ++ " " ++ colon ++ " " ++ value
  | some .aligned =>
    let label := (name ++ colon).toList
    if width == 0 then name ++ colon ++ " " ++ value
    else String.ofList (Text.padRight (width + colon.length) label) ++ " " ++ value
  | some .compact | none => name ++ colon ++ " " ++ value

end MemberOrder.Layout

/-! ## The rules of the languages -/

namespace MemberOrder.Layout

/-- The layout rules of a language. -/
structure Rules where
  comments : CommentForms
  /-- The usual separator between the members of an entity. -/
  separator : EntityKind → String
  /-- Whether separators belong to places and not to members. -/
  separatorsStay : Bool := false
  /-- Whether the option on trailing commas applies. -/
  hasTrailingCommas : Bool := false
  /-- Whether a body that is written anew ends with a line break. -/
  breaksBeforeFooter : Bool := true
  /-- Whether bodies are ever written anew. -/
  retypes : Bool := true
  /-- The group of a member, where blank lines stand between groups. -/
  group : MemberInfo → String
  /-- The width to which names are aligned. -/
  nameWidth : List Member → Nat
  /-- A member typed anew. -/
  retype : Options → Member → (width : Nat) → String
  /-- The comment that takes the place of an entity that cannot be written. -/
  failure : (name message : String) → String

namespace Rules

/-- The largest of some numbers. -/
def largest (ns : List Nat) : Nat := ns.foldl max 0

/-! ## Scripts -/

/-- Whether a member is a name and a value that can be typed anew. -/
def isPlain (m : MemberInfo) : Bool :=
  m.kind == .property && !m.isSpread && Text.strip m.fullText != m.name
    && !m.value.display.isEmpty

/-- The name of a script member with its mark for optional members. -/
def label (m : MemberInfo) : String := if m.optional then m.name ++ "?" else m.name

/-- The layout of scripts. -/
def script : Rules where
  comments := { line := some "//", block := true }
  separator kind := if kind == .object then "," else ";"
  hasTrailingCommas := true
  group m := (Order.TypeGroup.ofMember m).name
  nameWidth ms := largest ((ms.filter (isPlain ·.info)).map fun m => (label m.info).length)
  retype o m width :=
    if isPlain m.info then nameAndValue o (label m.info) m.info.value.display width ":"
    else m.info.fullText
  failure name message := "// Error reconstructing " ++ name ++ ": " ++ message

/-! ## Style sheets -/

/-- The layout of style sheets: the plain dialect has no line comments, and the indented one
neither separators nor closing brackets. -/
def style (fileType : FileType) : Rules where
  comments := { line := if fileType == .css then none else some "//", block := true }
  separator _ := if fileType == .sass then "" else ";"
  breaksBeforeFooter := fileType != .sass
  group m := Order.categoryOf m.name
  nameWidth ms := largest (ms.map (·.name.length))
  retype o m width :=
    if m.children?.isSome || !m.info.value.isTruthy then m.info.fullText
    else nameAndValue o m.name m.info.value.display width ":"
  failure name message := "/* Error reconstructing " ++ name ++ ": " ++ message ++ " */"

/-! ## Structs -/

/-- Whether a field is a name and a type on one line. -/
def isNamedField (m : MemberInfo) : Bool :=
  !m.isEmbedded && m.kind == .property && !m.value.display.toList.contains '\n'

/-- A field typed anew: name, type and tags. -/
def retypeField (o : Options) (m : MemberInfo) (width : Nat) : String :=
  let name :=
    if o.propertySpacing == some .aligned then String.ofList (Text.padRight width m.name.toList)
    else m.name
  let grave := String.singleton (Char.ofNat 96)
  let tags := match m.structTags with
    | some tags => " " ++ grave ++ tags ++ grave
    | none => ""
  name ++ " " ++ m.value.display ++ tags

/-- The layout of structs. -/
def struct : Rules where
  comments := { line := some "//", block := true }
  separator _ := ""
  group m :=
    if m.isEmbedded then "embedded" else if Order.isExported m then "exported" else "unexported"
  nameWidth ms := largest ((ms.filter (isNamedField ·.info)).map (·.name.length))
  retype o m width := if isNamedField m.info then retypeField o m.info width else m.info.fullText
  failure name message := "// Error reconstructing " ++ name ++ ": " ++ message

/-! ## Data -/

/-- The layout of JSON documents: commas belong to places. -/
def json : Rules where
  comments := { line := some "//", block := true }
  separator _ := ","
  separatorsStay := true
  hasTrailingCommas := true
  group m := if Order.isComplex m then "nested" else "scalar"
  nameWidth ms := largest (ms.map (·.name.length + 2))
  retype o m width :=
    if m.info.value.text? == some m.info.fullText then m.info.fullText
    else nameAndValue o ("\"" ++ m.name ++ "\"") m.info.value.display width ":"
  failure name message := "// Error reconstructing " ++ name ++ ": " ++ message

/-- The layout of YAML documents: entries are whole lines and never typed anew. -/
def yaml : Rules where
  comments := { line := some "#", block := false }
  separator _ := ""
  retypes := false
  group _ := "property"
  nameWidth ms := largest (ms.map (·.name.length))
  retype _ m _ := m.info.fullText
  failure name message := "# Error reconstructing " ++ name ++ ": " ++ message

/-- The rules of a file type. -/
def ofFileType (fileType : FileType) : Rules :=
  match fileType.language with
  | .typescript => script
  | .css => style fileType
  | .go => struct
  | .json => json
  | .yaml => yaml

end Rules

/-- Whether bodies are written anew under the options. -/
def synthesizes (rules : Rules) (o : Options) : Bool := rules.retypes && o.asksForLayout

end MemberOrder.Layout
