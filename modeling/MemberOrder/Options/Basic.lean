/-
  The options of a run. Every choice is a type of its own, with the names under which the
  choices are written.
-/
import MemberOrder.Data.Node
import MemberOrder.Options.FileType

namespace MemberOrder

/-- The direction in which names are ordered. -/
inductive SortOrder where
  | ascending
  | descending
  deriving Repr, DecidableEq, Inhabited

/-- How the fields of a struct are ordered. -/
inductive StructStrategy where
  | alphabetical
  | byType
  | bySize
  | preserveTags
  deriving Repr, DecidableEq, Inhabited

/-- What one level of indentation is made of. -/
inductive IndentationType where
  | auto
  | spaces
  | tabs
  deriving Repr, DecidableEq, Inhabited

/-- The line ending that is written. -/
inductive LineEnding where
  | auto
  | lf
  | crlf
  deriving Repr, DecidableEq, Inhabited

/-- The shape in which comments are written. -/
inductive CommentStyle where
  | preserve
  | singleLine
  | multiLine
  deriving Repr, DecidableEq, Inhabited

/-- What happens to the separator of the last member. -/
inductive TrailingCommas where
  | preserve
  | add
  | remove
  deriving Repr, DecidableEq, Inhabited

/-- The indentation of mapping documents. -/
inductive YamlIndentation where
  | auto
  | two
  | four
  deriving Repr, DecidableEq, Inhabited

/-- How a name and its value are set apart. -/
inductive Spacing where
  | compact
  | spaced
  | aligned
  deriving Repr, DecidableEq, Inhabited

/-- The width of one level of indentation: a number of blanks, or a value that is no number
and is noticed only when the blanks are needed. -/
inductive IndentWidth where
  | blanks (n : Int)
  | invalid (value : Node)
  deriving Repr, Inhabited

/-! ## Names of the choices -/

/-- The spellings of the choices of an option, in the order in which they are listed. -/
class Choice (α : Type) where
  spellings : List (String × α)

instance : Choice SortOrder := ⟨[("asc", .ascending), ("desc", .descending)]⟩
instance : Choice StructStrategy :=
  ⟨[("alphabetical", .alphabetical), ("by-type", .byType), ("by-size", .bySize),
    ("preserve-tags", .preserveTags)]⟩
instance : Choice IndentationType := ⟨[("auto", .auto), ("spaces", .spaces), ("tabs", .tabs)]⟩
instance : Choice LineEnding := ⟨[("auto", .auto), ("lf", .lf), ("crlf", .crlf)]⟩
instance : Choice CommentStyle :=
  ⟨[("preserve", .preserve), ("single-line", .singleLine), ("multi-line", .multiLine)]⟩
instance : Choice TrailingCommas := ⟨[("preserve", .preserve), ("add", .add), ("remove", .remove)]⟩
instance : Choice YamlIndentation := ⟨[("auto", .auto), ("2-spaces", .two), ("4-spaces", .four)]⟩
instance : Choice Spacing := ⟨[("compact", .compact), ("spaced", .spaced), ("aligned", .aligned)]⟩

/-- The choice with a spelling. -/
def Choice.ofSpelling? (α : Type) [Choice α] (s : String) : Option α :=
  (Choice.spellings : List (String × α)).lookup s

/-- The spelling of a choice. -/
def Choice.spelling {α : Type} [Choice α] [DecidableEq α] (a : α) : String :=
  (((Choice.spellings : List (String × α)).find? (·.2 == a)).map (·.1)).getD ""

/-! ## The options -/

/-- Every option, with its default. -/
structure Options where
  fileType : FileType := .typescript
  sortOrder : SortOrder := .ascending
  caseSensitive : Bool := true
  naturalSort : Bool := false
  /-- Names that come first, in this order. -/
  customOrder : List String := []
  groupByType : Bool := false
  prioritizeRequired : Bool := false
  sortNestedObjects : Bool := true
  preserveFormatting : Bool := true
  includeComments : Bool := true
  preserveMethodChaining : Bool := true
  sortByImportance : Bool := false
  groupVendorPrefixes : Bool := false
  groupByCategory : Bool := false
  groupVariables : Bool := true
  sortKeyframes : Bool := false
  structStrategy : StructStrategy := .alphabetical
  groupEmbeddedFields : Bool := true
  groupByVisibility : Bool := true
  sortObjectKeys : Bool := true
  preserveArrayOrder : Bool := true
  customKeyOrder : List String := []
  groupBySchema : Bool := false
  yamlCustomKeyOrder : List String := []
  yamlGroupBySchema : Bool := false
  preserveAnchorsAndAliases : Bool := true
  preserveDocumentSeparators : Bool := true
  preserveStringStyles : Bool := true
  yamlIndentation : YamlIndentation := .auto
  handleComplexKeys : Bool := true
  /-- A literal level of indentation, from which type and width are derived. -/
  indentation : Option String := none
  indentationType : IndentationType := .auto
  indentationSize : IndentWidth := .blanks 4
  lineEnding : LineEnding := .auto
  preserveComments : Bool := true
  commentStyle : CommentStyle := .preserve
  /-- Without a spacing every member stays as written. -/
  propertySpacing : Option Spacing := none
  trailingCommas : TrailingCommas := .preserve
  blankLinesBetweenGroups : Bool := false
  deriving Repr, Inhabited

namespace Options

/-- Whether names are ordered backwards. -/
def isDescending (o : Options) : Bool := o.sortOrder == .descending

/-- Whether comments are written at all. -/
def commentsEnabled (o : Options) : Bool := o.includeComments && o.preserveComments

/-- The language of the file type. -/
def language (o : Options) : Language := o.fileType.language

/-- Whether an option asks for a layout that the source does not have, so that bodies are
written anew and not dealt back into their slots. -/
def asksForLayout (o : Options) : Bool :=
  !o.preserveFormatting || o.commentStyle != .preserve || o.propertySpacing.isSome
    || o.indentationType != .auto || o.blankLinesBetweenGroups || !o.commentsEnabled

end Options

end MemberOrder
