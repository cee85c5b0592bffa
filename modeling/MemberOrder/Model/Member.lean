/-
  Members: what an entity is made of. A member is an interface signature, an object key, a
  style declaration, a struct field, an array element or a mapping entry. A member whose
  value is a block of further members carries them as its children.
-/
import MemberOrder.Data.Node
import MemberOrder.Source.Comment
import MemberOrder.Source.Span

namespace MemberOrder

/-- The value of a member: a piece of source text, or a node of a data document. -/
inductive Value where
  | text (s : String)
  | node (n : Node)
  deriving Repr, Inhabited

namespace Value

/-- The text of a value that is a text. -/
def text? : Value → Option String
  | .text s => some s
  | .node n => n.text?

/-- The text that shows a value. -/
def display : Value → String
  | .text s => s
  | .node n => n.display

/-- Whether a value is neither empty, null, false nor zero. -/
def isTruthy : Value → Bool
  | .text s => !s.isEmpty
  | .node n => n.isTruthy

/-- Whether a value is a mapping or a sequence. -/
def isCollection : Value → Bool
  | .text _ => false
  | .node n => n.isCollection

end Value

/-- What kind of declaration a member is. -/
inductive MemberKind where
  | property
  | method
  | getter
  | setter
  | signature
  deriving Repr, DecidableEq, Inhabited

/-- The brackets around the children of a member. -/
inductive Container where
  | none
  | braces
  | brackets
  deriving Repr, DecidableEq, Inhabited

/-- Everything about a member but its children. -/
structure MemberInfo where
  name : String
  /-- Whether the record carries a name at all. -/
  hasName : Bool := true
  /-- The form of a key that is written back as it was and not by its name alone. -/
  keyForm : Form := {}
  value : Value := .text ""
  /-- The comments that lead it. -/
  comments : List Comment := []
  /-- The comments after it on its line. -/
  trailingComments : List Comment := []
  /-- The text from its separator through the last trailing comment. -/
  trailingText : String := ""
  optional : Bool := false
  line : Nat := 0
  /-- The member as written, separator excluded. -/
  fullText : String := ""
  /-- The separator after it, or nothing. -/
  separator : String := ""
  hasNestedObject : Bool := false
  /-- Whether it is a spread, which keeps its place. -/
  isSpread : Bool := false
  important : Bool := false
  vendorPrefix : Option String := none
  structTags : Option String := none
  isEmbedded : Bool := false
  kind : MemberKind := .property
  /-- The member itself. -/
  span : Option Span := none
  /-- The member with its comments and its separator. -/
  unit : Option Span := none
  /-- The inside of its block. -/
  body : Option Span := none
  container : Container := .none
  /-- Whether its block is written on one line. -/
  nestedInline : Bool := false
  /-- The text before its block. -/
  header : String := ""
  /-- The comments of its block that belong to no child. -/
  dangling : List Comment := []
  deriving Repr, Inhabited

/-- A member, with its children where its value is a block. -/
inductive Member where
  | leaf (info : MemberInfo)
  | group (info : MemberInfo) (children : List Member)
  deriving Repr, Inhabited

namespace Member

/-- Everything but the children. -/
def info : Member → MemberInfo
  | .leaf i | .group i _ => i

/-- The name. -/
def name (m : Member) : String := m.info.name

/-- The children, where there is a block. -/
def children? : Member → Option (List Member)
  | .leaf _ => none
  | .group _ cs => some cs

/-- The children; none where there is no block. -/
def children : Member → List Member
  | .leaf _ => []
  | .group _ cs => cs

/-- Changes everything but the children. -/
def mapInfo (f : MemberInfo → MemberInfo) : Member → Member
  | .leaf i => .leaf (f i)
  | .group i cs => .group (f i) cs

/-- Where the unit starts. -/
def unitStart (m : Member) : Nat := (m.info.unit.map (·.start)).getD 0

/-- Where the unit ends. -/
def unitStop (m : Member) : Nat := (m.info.unit.map (·.stop)).getD 0

end Member

/-- The names of members, with the names of their children. -/
inductive NameTree where
  | node (name : String) (children : List NameTree)
  deriving Repr, Inhabited

mutual

/-- The names of a member and of its children. -/
def Member.nameTree : Member → NameTree
  | .leaf i => .node i.name []
  | .group i cs => .node i.name (nameTrees cs)

/-- The names of members and of their children. -/
def nameTrees : List Member → List NameTree
  | [] => []
  | m :: rest => m.nameTree :: nameTrees rest

end

mutual

/-- Whether two name trees are equal. -/
def NameTree.same : NameTree → NameTree → Bool
  | .node a as, .node b bs => a == b && sameTrees as bs

/-- Whether two lists of name trees are equal. -/
def sameTrees : List NameTree → List NameTree → Bool
  | [], [] => true
  | a :: as, b :: bs => a.same b && sameTrees as bs
  | _, _ => false

end

/-- Whether two member lists have the same names, in the same order, at every depth. -/
def sameNames (as bs : List Member) : Bool := sameTrees (nameTrees as) (nameTrees bs)

end MemberOrder
