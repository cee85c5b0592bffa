/-
  The tokens of YAML, with the places they stand at and the remarks they carry.
-/
import MemberOrder.Data.Node
import MemberOrder.Yaml.Cursor
import MemberOrder.Yaml.Problem

/-!
The remarks that a token carries: the one that follows it, and those in front of it. Tokens
pass them on to each other, which fails where both have some of the same kind.
-/

namespace MemberOrder.Yaml

/-- What a token carries: nothing in a place where a remark was taken away. -/
structure Carried where
  after : Option Remark := none
  before : Option (List Remark) := none
  /-- The comment on the first line of a block scalar, which keeps others from standing in
  front. -/
  header : Option String := none
  /-- The remark that stands for that on a missing value as well. -/
  doubled : Option (Option Remark) := none
  deriving Repr, DecidableEq, Inhabited

/-- A remark as diagnostics show it. -/
def shownRemark (r : Remark) : String :=
  "CommentToken(" ++ Text.quoted r.text ++ ", line: " ++ toString r.line ++ ", col: "
    ++ toString r.column ++ ")"

namespace Carried

/-- What a token carries, as diagnostics show it. -/
def shown (c : Carried) : String :=
  let single (r : Option Remark) := (r.map shownRemark).getD "None"
  let listed (items : List String) := "[" ++ Text.joinStrings ", " items ++ "]"
  let before := match c.header, c.before with
    | some header, _ => listed [Text.quoted header]
    | none, some remarks => listed (remarks.map shownRemark)
    | none, none => "None"
  listed ([single c.after, before] ++ match c.doubled with
    | some after => ["None", "None", single after]
    | none => [])

/-- Whether some remarks stand in front. -/
def hasBefore (c : Carried) : Bool := c.header.isSome || c.before.any (!·.isEmpty)

/-- Adds the remark that follows. -/
def addAfter (c : Option Carried) (r : Remark) : Carried := { c.getD {} with after := some r }

/-- Adds the remarks in front, which may be done once. -/
def addBefore (c : Option Carried) (rs : List Remark) : Except Fault Carried :=
  match c with
  | none => .ok { before := some rs }
  | some c =>
    if c.doubled.isSome || c.header.isSome || c.before.isSome then .error (.failed .repeatedRemarks)
    else .ok { c with before := some rs }

/-- Passes remarks on to what a token carries already. `empty` tells that the value before the
token is missing. -/
def passTo (c : Carried) (empty : Bool) (target : Option Carried) : Except Fault Carried :=
  match target with
  | none => .ok { c with doubled := if empty then some c.after else c.doubled }
  | some t =>
    if (c.after.isSome && t.after.isSome) || (c.hasBefore && t.hasBefore) then
      .error (.failed (.overlappingRemarks c.shown t.shown))
    else
      .ok { t with
        after := if c.after.isSome then c.after else t.after
        before := if c.hasBefore then c.before else t.before
        header := if c.hasBefore then c.header else t.header }

/-- What is carried, less the remarks in front. -/
def withoutBefore (c : Carried) : Carried := { c with before := none, header := none }

/-- The remarks in front alone. -/
def onlyBefore (c : Carried) : Carried := { before := c.before, header := c.header }

/-- The remarks on a node out of what its token carries. -/
def remarks (c : Option Carried) : Remarks :=
  match c with
  | none => {}
  | some c => ⟨c.after, c.before.getD []⟩

end Carried

end MemberOrder.Yaml

/-! ## Tokens -/

namespace MemberOrder.Yaml

/-- The directives in front of a document. -/
inductive Directive where
  | version (major minor : Nat)
  | handle (handle start : String)
  | other (name : String)
  deriving Repr, DecidableEq

/-- What a token is. -/
inductive TokenKind where
  | streamStart
  | streamEnd
  | directive (d : Directive)
  | documentStart
  | documentEnd
  | blockSequenceStart
  | blockMappingStart
  | blockEnd
  | flowSequenceStart
  | flowMappingStart
  | flowSequenceEnd
  | flowMappingEnd
  | key
  | value
  | blockEntry
  | flowEntry
  | alias (name : String)
  | anchor (name : String)
  | tag (handle : Option String) (suffix : String)
  | scalar (text : String) (style : ScalarStyle)
  /-- A comment or empty lines. -/
  | remark (text : String)
  deriving Repr, DecidableEq

namespace TokenKind

/-- The name that diagnostics use for a token. -/
def name : TokenKind → String
  | .streamStart => "<stream start>"
  | .streamEnd => "<stream end>"
  | .directive _ => "<directive>"
  | .documentStart => "<document start>"
  | .documentEnd => "<document end>"
  | .blockSequenceStart => "<block sequence start>"
  | .blockMappingStart => "<block mapping start>"
  | .blockEnd => "<block end>"
  | .flowSequenceStart => "["
  | .flowMappingStart => "\x7b"
  | .flowSequenceEnd => "]"
  | .flowMappingEnd => "\x7d"
  | .key => "?"
  | .value => ":"
  | .blockEntry => "-"
  | .flowEntry => ","
  | .alias _ => "<alias>"
  | .anchor _ => "<anchor>"
  | .tag _ _ => "<tag>"
  | .scalar _ _ => "<scalar>"
  | .remark _ => "<comment>"

/-- Whether a token is a scalar. -/
def isScalar : TokenKind → Bool
  | .scalar _ _ => true
  | _ => false

/-- Whether a token takes the remark that follows on its line. -/
def takesRemark : TokenKind → Bool
  | .scalar _ _ | .value | .flowSequenceEnd | .flowMappingEnd => true
  | _ => false

/-- Whether a token starts a document that is marked as one, or ends the stream. -/
def isDocumentMark : TokenKind → Bool
  | .directive _ | .documentStart | .streamEnd => true
  | _ => false

end TokenKind

/-- A token with the places where it starts and just past its end. -/
structure Token where
  kind : TokenKind
  start : Mark
  stop : Mark
  carried : Option Carried := none
  deriving Repr, DecidableEq

/-- The remark that a token is, if it is one. -/
def Token.remark? (t : Token) : Option Remark :=
  match t.kind with
  | .remark text => some ⟨text, t.start.line, t.start.column⟩
  | _ => none

end MemberOrder.Yaml
