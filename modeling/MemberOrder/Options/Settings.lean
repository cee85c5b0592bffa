/-
  Settings: loosely written options, as an option file or a caller gives them, and the
  option set they amount to. Names may be written in snake_case, camelCase or kebab-case;
  unknown names are ignored; of two spellings of one option the later one counts; a null
  counts as not given.
-/
import MemberOrder.Options.Basic

namespace MemberOrder

/-- Option names as written and their values, in the order in which they are written. -/
abbrev Settings := List (String × Node)

/-- Why settings are no option set. -/
inductive OptionError where
  /-- A file type of a kind that has no small letters. -/
  | noFileTypeName (typeName : String)
  | unsupportedFileType (name : String)
  | invalidChoice (option shown : String) (allowed : List String)
  /-- A literal level of indentation that is no text. -/
  | noIndentation (typeName : String)
  | invalidSpacing (shown : String)
  /-- A list of names that is no list. -/
  | noNames (typeName : String)
  deriving Repr, DecidableEq

/-- How an option error is reported. -/
def OptionError.message : OptionError → String
  | .noFileTypeName typeName => Text.quoted typeName ++ " object has no attribute 'lower'"
  | .unsupportedFileType name => "Unsupported file type: " ++ name
  | .invalidChoice option shown allowed =>
    "Invalid value for " ++ option ++ ": " ++ shown ++ " (expected one of "
      ++ Text.joinStrings ", " allowed ++ ")"
  | .noIndentation typeName =>
    if typeName == "bytes" then "cannot use a string pattern on a bytes-like object"
    else "expected string or bytes-like object, got " ++ Text.quoted typeName
  | .invalidSpacing shown => "Invalid value for property_spacing: " ++ shown
  | .noNames typeName => Text.quoted typeName ++ " object is not iterable"

namespace Settings

/-- Sets a name as written: it keeps its place when it is there already. -/
def insert : Settings → String → Node → Settings
  | [], name, value => [(name, value)]
  | (k, v) :: rest, name, value =>
    if k == name then (k, value) :: rest else (k, v) :: insert rest name value

/-- Sets several names, one after the other. -/
def insertAll (base overrides : Settings) : Settings :=
  overrides.foldl (fun s (name, value) => insert s name value) base

/-- Whether a character may stand before the capital that starts a new word. -/
def endsWord (c : Char) : Bool := c.isLower || c.isDigit

/-- Writes the capitals that start a new word small, after an underscore. -/
def splitWords : (before : Option Char) → List Char → List Char
  | _, [] => []
  | before, c :: rest =>
    if c.isUpper && before.any endsWord then '_' :: c.toLower :: splitWords (some c) rest
    else c :: splitWords (some c) rest

/-- The snake_case form of an option name. -/
def snakeCase (name : String) : String :=
  String.ofList (splitWords none (name.toList.map fun c => if c == '-' then '_' else c))

/-- The long names of the two directions stand for the short ones. -/
def directionOf (value : Node) : Node :=
  match value.text? with
  | some "ascending" => Node.ofText "asc"
  | some "descending" => Node.ofText "desc"
  | _ => value

/-- The value that an option gets: the last one that is given under any of its spellings. -/
def value? (s : Settings) (option : String) : Option Node :=
  (s.filter fun (name, value) => snakeCase name == option && !value.isNull).getLast?.map fun e =>
    if option == "sort_order" then directionOf e.2 else e.2

/-- The value of a yes-or-no option. -/
def flag (s : Settings) (option : String) (default : Bool) : Bool :=
  ((s.value? option).map (·.isTruthy)).getD default

/-- The value of an option that has a list of choices. -/
def choice {α : Type} [Choice α] (s : Settings) (option : String) (default : α) :
    Except OptionError α :=
  match s.value? option with
  | none => .ok default
  | some value =>
    match value.text?.bind (Choice.ofSpelling? α) with
    | some a => .ok a
    | none =>
      .error (.invalidChoice option value.shown
        ((Choice.spellings : List (String × α)).map (·.1)))

/-- The names in a list; a text counts as the list of its characters, a mapping as the list of its keys,
and what is empty as no names. -/
def namesOf (value : Node) : Except OptionError (List String) :=
  match value with
  | .sequence items _ => .ok (items.map Node.display)
  | .mapping entries _ => .ok (entries.map (·.1.displayKey))
  | .scalar (.bytes bs) _ => .ok (bs.map fun b => toString b.toNat)
  | .scalar _ _ =>
    if value.isText then .ok (value.display.toList.map String.singleton)
    else if value.isTruthy then .error (.noNames value.typeName)
    else .ok []

/-- The value of an option that is a list of names. -/
def names (s : Settings) (option : String) : Except OptionError (List String) :=
  match s.value? option with
  | none => .ok []
  | some value => namesOf value

/-- The file type; an empty one counts as not given. -/
def fileType (s : Settings) : Except OptionError FileType :=
  match s.value? "file_type" with
  | none => .ok .typescript
  | some value =>
    if !value.isTruthy then .ok .typescript
    else if value.isText || value.isBytes then
      let name := Text.lower value.display
      match FileType.ofName? name with
      | some t => .ok t
      | none => .error (.unsupportedFileType name)
    else .error (.noFileTypeName value.typeName)

/-- The literal level of indentation, if one is given; an empty one decides nothing. -/
def indentation (s : Settings) : Except OptionError (Option String) :=
  match s.value? "indentation" with
  | none => .ok none
  | some value =>
    if value.isText then .ok (some value.display)
    else if value.isTruthy then .error (.noIndentation value.typeName)
    else .ok none

/-- The spacing, if one is given. -/
def spacing (s : Settings) : Except OptionError (Option Spacing) :=
  match s.value? "property_spacing" with
  | none => .ok none
  | some value =>
    match value.text?.bind (Choice.ofSpelling? Spacing) with
    | some a => .ok (some a)
    | none => .error (.invalidSpacing value.shown)

/-- The width of a level of indentation. -/
def indentWidth (s : Settings) : IndentWidth :=
  match s.value? "indentation_size" with
  | none => .blanks 4
  | some (.scalar (.int n) _) => .blanks n
  | some (.scalar (.bool b) _) => .blanks (if b then 1 else 0)
  | some value => .invalid value

/-- Type and width of the indentation, where a literal level of indentation decides them. -/
def literalIndentation (literal : Option String) (given : IndentationType × IndentWidth) :
    IndentationType × IndentWidth :=
  match literal with
  | none => given
  | some text =>
    let cs := text.toList
    if cs == ['\t'] then (.tabs, given.2)
    else if !cs.isEmpty && cs.all (· == ' ') then (.spaces, .blanks cs.length)
    else given

/-- The option set that settings amount to. -/
def toOptions (s : Settings) : Except OptionError Options := do
  let fileType ← s.fileType
  let sortOrder ← s.choice "sort_order" SortOrder.ascending
  let structStrategy ← s.choice "sort_struct_fields" StructStrategy.alphabetical
  let indentationType ← s.choice "indentation_type" IndentationType.auto
  let lineEnding ← s.choice "line_ending" LineEnding.auto
  let commentStyle ← s.choice "comment_style" CommentStyle.preserve
  let trailingCommas ← s.choice "trailing_commas" TrailingCommas.preserve
  let yamlIndentation ← s.choice "yaml_indentation_style" YamlIndentation.auto
  let indentation ← s.indentation
  let (indentationType, indentationSize) :=
    literalIndentation indentation (indentationType, s.indentWidth)
  let propertySpacing ← s.spacing
  let customOrder ← s.names "custom_order"
  let customKeyOrder ← s.names "custom_key_order"
  let yamlCustomKeyOrder ← s.names "yaml_custom_key_order"
  return {
    fileType, sortOrder, structStrategy, indentationType, indentationSize, lineEnding
    commentStyle, trailingCommas, yamlIndentation, indentation, propertySpacing
    customOrder, customKeyOrder, yamlCustomKeyOrder
    caseSensitive := s.flag "case_sensitive" true
    naturalSort := s.flag "natural_sort" false
    groupByType := s.flag "group_by_type" false
    prioritizeRequired := s.flag "prioritize_required" false
    sortNestedObjects := s.flag "sort_nested_objects" true
    preserveFormatting := s.flag "preserve_formatting" true
    includeComments := s.flag "include_comments" true
    preserveMethodChaining := s.flag "preserve_method_chaining" true
    sortByImportance := s.flag "sort_by_importance" false
    groupVendorPrefixes := s.flag "group_vendor_prefixes" false
    groupByCategory := s.flag "group_by_category" false
    groupVariables := s.flag "group_variables" true
    sortKeyframes := s.flag "sort_keyframes" false
    groupEmbeddedFields := s.flag "group_embedded_fields" true
    groupByVisibility := s.flag "group_by_visibility" true
    sortObjectKeys := s.flag "sort_object_keys" true
    preserveArrayOrder := s.flag "preserve_array_order" true
    groupBySchema := s.flag "group_by_schema" false
    yamlGroupBySchema := s.flag "yaml_group_by_schema" false
    preserveAnchorsAndAliases := s.flag "preserve_anchors_and_aliases" true
    preserveDocumentSeparators := s.flag "preserve_document_separators" true
    preserveStringStyles := s.flag "preserve_string_styles" true
    handleComplexKeys := s.flag "handle_complex_keys" true
    preserveComments := s.flag "preserve_comments" true
    blankLinesBetweenGroups := s.flag "blank_lines_between_groups" false }

/-- Settings for a file: its extension decides the file type. -/
def forFile (s : Settings) (path : String) : Settings :=
  s.insertAll [("file_type", Node.ofText (FileType.ofPath path).name)]

end Settings

end MemberOrder
