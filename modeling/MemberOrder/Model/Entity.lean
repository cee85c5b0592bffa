/-
  Entities: the declarations of a source whose members can be put in order, and what
  reading a source yields.
-/
import MemberOrder.Model.Member
import MemberOrder.Options.FileType
import MemberOrder.Yaml.Problem

/-! What can be wrong with a source, and how it is reported. -/

namespace MemberOrder

/-- What keeps a text from being a JSON document. -/
inductive JsonProblem where
  | expectedRoot (found : Char)
  | afterRoot (found : Char)
  | unclosed (bracket : Char)
  | unterminatedString
  | unexpectedToken (token : String)
  | expectedName (found : Char)
  | expectedColon
  | missingValue
  | expectedComma (found : Char)
  deriving Repr, DecidableEq

/-- A character between single quotes. -/
def quotedChar (c : Char) : String := "'" ++ String.singleton c ++ "'"

namespace JsonProblem

/-- The wording of a problem. -/
def message : JsonProblem → String
  | .expectedRoot found => "Expected '\x7b' or '[' but found " ++ quotedChar found
  | .afterRoot found => "Unexpected " ++ quotedChar found ++ " after the root value"
  | .unclosed bracket => "Unclosed " ++ quotedChar bracket
  | .unterminatedString => "Unterminated string"
  | .unexpectedToken token => "Unexpected token '" ++ token ++ "'"
  | .expectedName found => "Expected a property name but found " ++ quotedChar found
  | .expectedColon => "Expected ':' after property name"
  | .missingValue => "Missing value"
  | .expectedComma found => "Expected ',' but found " ++ quotedChar found

end JsonProblem

/-- What is wrong with a source. -/
inductive ReadError where
  /-- The braces of a declaration do not end. -/
  | unclosedDeclaration (dialect kind name : String) (line : Nat)
  | unbalancedBraces (dialect : String) (opened closed : Nat)
  | unexpectedBrace (dialect : String) (line : Nat)
  | unclosedBlock (dialect : String) (line : Nat)
  | unclosedStruct (name : String) (line : Nat)
  | json (problem : JsonProblem) (line : Nat)
  /-- A fault of a YAML document that comes after a number of lines. -/
  | yaml (skipped : Nat) (fault : Yaml.Fault)
  /-- The entries of a document could not be told apart by their lines. -/
  | noEntries (name : String)
  deriving Repr, DecidableEq

namespace ReadError

/-- How a read error is reported. -/
def message : ReadError → String
  | .unclosedDeclaration dialect kind name line =>
    dialect ++ " parsing error: Unclosed " ++ kind ++ " '" ++ name ++ "' at line " ++ toString line
  | .unbalancedBraces dialect opened closed =>
    dialect ++ " parsing error: Unbalanced braces (" ++ toString opened ++ " opening, "
      ++ toString closed ++ " closing)"
  | .unexpectedBrace dialect line =>
    dialect ++ " parsing error: Unexpected closing brace at line " ++ toString line
  | .unclosedBlock dialect line =>
    dialect ++ " parsing error: Unclosed block at line " ++ toString line
  | .unclosedStruct name line =>
    "Go parsing error: Unclosed struct '" ++ name ++ "' at line " ++ toString line
  | .json problem line =>
    "JSON parsing error: " ++ problem.message ++ " at line " ++ toString line
  | .yaml skipped fault => "YAML parsing error: " ++ fault.message skipped
  | .noEntries name => "YAML parsing error: could not locate the entries of " ++ name

end ReadError

end MemberOrder

/-! ## Entities -/

namespace MemberOrder

/-- What kind of declaration an entity is. -/
inductive EntityKind where
  | interface
  | object
  | typeLiteral
  | cssRule
  | cssKeyframes
  | cssMedia
  | cssAtRule
  | struct
  | jsonObject
  | jsonArray
  | yamlObject
  | yamlArray
  deriving Repr, DecidableEq, Inhabited

namespace EntityKind

/-- Whether the members are elements with an order of their own. -/
def isArray : EntityKind → Bool
  | .jsonArray | .yamlArray => true
  | _ => false

end EntityKind

/-- A declaration together with the region of the source it occupies. -/
structure Entity where
  kind : EntityKind
  name : String
  members : List Member := []
  startLine : Nat := 0
  endLine : Nat := 0
  leading : List Comment := []
  isExported : Bool := false
  /-- The text of the span. -/
  sourceText : String := ""
  specificity : Option Nat := none
  mediaQuery : Option String := none
  keyframesName : Option String := none
  /-- The region that is written anew, leading comments included. -/
  span : Option Span := none
  /-- The region between header and footer. -/
  body : Option Span := none
  /-- The text up to and including the opening bracket. -/
  header : String := ""
  /-- The text from the closing bracket on. -/
  footer : String := ""
  /-- The indentation of member lines. -/
  indent : String := ""
  /-- The indentation of the header line. -/
  baseIndent : String := ""
  /-- Whether the body is written on one line. -/
  inline : Bool := false
  dangling : List Comment := []
  fileType : FileType := .typescript
  deriving Repr, Inhabited

/-- What identifies an entity before and after sorting: its lines and its name. -/
structure EntityKey where
  startLine : Nat
  endLine : Nat
  name : String
  deriving Repr, DecidableEq

/-- The identity of an entity. -/
def Entity.key (e : Entity) : EntityKey := ⟨e.startLine, e.endLine, e.name⟩

/-- What reading a source yields: its entities, and what was wrong with it. -/
structure Reading where
  entities : List Entity := []
  errors : List ReadError := []
  deriving Repr, Inhabited

end MemberOrder
