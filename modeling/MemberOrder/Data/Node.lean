/-
  Nodes: the values of a data document, each with the form it was written in. Option
  files, flow collections and loose option values are all nodes.
-/
import MemberOrder.Data.Moment
import MemberOrder.Number.Binary64
import MemberOrder.Text.Base64

namespace MemberOrder

/-- How a scalar is written. -/
inductive ScalarStyle where
  | plain
  | singleQuoted
  | doubleQuoted
  | literal
  | folded
  deriving Repr, DecidableEq, Inhabited

/-- A tag: a handle and a suffix as they are written, and what they stand for. -/
structure Tag where
  handle : Option String := none
  suffix : String
  name : String
  deriving Repr, DecidableEq, Inhabited

/-- A comment, or a run of empty lines, as it stands between the tokens of a document. Lines
and columns count from zero. -/
structure Remark where
  text : String
  line : Nat
  column : Nat
  deriving Repr, DecidableEq, Inhabited

/-- The remarks on a node: the one that follows it, and those in front of it. -/
structure Remarks where
  after : Option Remark := none
  before : List Remark := []
  deriving Repr, DecidableEq, Inhabited

/-- What a scalar denotes. -/
inductive Scalar where
  | null
  | bool (b : Bool)
  | int (n : Int)
  | float (x : Binary64)
  | text (s : String)
  | moment (m : Moment)
  | bytes (bs : List UInt8)
  /-- A text whose tag says nothing about it. -/
  | tagged (s : String)
  /-- The key whose value is a mapping, or a list of them, that lends its entries. -/
  | merge
  deriving Repr, DecidableEq, Inhabited

/-- What a collection is beside a mapping or a sequence. -/
inductive Role where
  | plain
  /-- A mapping of which only the keys count. -/
  | set
  /-- A mapping that is written as a sequence of entries. -/
  | orderedMap
  /-- A sequence of entries, whose keys may repeat. -/
  | pairs
  deriving Repr, DecidableEq, Inhabited

/-- Why a number cannot be written in the layout that it had. -/
inductive NumberProblem where
  | noPoint
  | noDigit
  deriving Repr, DecidableEq, Inhabited

/-- How a number is written back. -/
inductive Written where
  /-- By its value alone. -/
  | anew
  | as (text : String)
  | never (problem : NumberProblem)
  deriving Repr, DecidableEq, Inhabited

/-- The text of a number, given the one by its value. -/
def Written.textOr (byValue : String) : Written → String
  | .as text => text
  | .anew | .never _ => byValue

/-- Where and how a node was written. -/
structure Form where
  /-- The number of the node in its document. Two places that share a node, one as an alias,
  have the same number. -/
  id : Nat := 0
  /-- The line, counted from zero. -/
  line : Nat := 0
  /-- The column, counted from zero. -/
  column : Nat := 0
  style : ScalarStyle := .plain
  /-- Whether a collection is written between brackets. -/
  flow : Bool := false
  /-- How a number is written back. -/
  written : Written := .anew
  anchor : Option String := none
  /-- The tag of a node whose tag is kept. -/
  tag : Option Tag := none
  role : Role := .plain
  remarks : Remarks := {}
  deriving Repr, DecidableEq, Inhabited

/-- A value of a data document. -/
inductive Node where
  | scalar (value : Scalar) (form : Form)
  | sequence (items : List Node) (form : Form)
  | mapping (entries : List (Node × Node)) (form : Form)
  deriving Repr, Inhabited

namespace Node

/-- A text that no document holds. -/
def ofText (s : String) : Node := .scalar (.text s) {}

/-- The form of a node. -/
def form : Node → Form
  | .scalar _ f | .sequence _ f | .mapping _ f => f

/-- A node in another form. -/
def withForm (f : Form) : Node → Node
  | .scalar value _ => .scalar value f
  | .sequence items _ => .sequence items f
  | .mapping entries _ => .mapping entries f

/-- The text that a text node denotes. -/
def text? : Node → Option String
  | .scalar (.text s) _ => some s
  | _ => none

/-- Whether a node is the null value. -/
def isNull : Node → Bool
  | .scalar .null _ => true
  | _ => false

/-- Whether a node is a mapping or a sequence. -/
def isCollection : Node → Bool
  | .scalar _ _ => false
  | .sequence _ _ | .mapping _ _ => true

/-- Whether a node is a text, with or without a tag. -/
def isText : Node → Bool
  | .scalar (.text _) _ | .scalar (.tagged _) _ | .scalar .merge _ => true
  | _ => false

/-- Whether a node is a sequence of bytes. -/
def isBytes : Node → Bool
  | .scalar (.bytes _) _ => true
  | _ => false

/-- Whether a node is neither null, false, zero nor empty. -/
def isTruthy : Node → Bool
  | .scalar .null _ => false
  | .scalar (.bool b) _ => b
  | .scalar (.int n) _ => n != 0
  | .scalar (.float x) _ => x.magnitude != 0
  | .scalar (.text s) _ => !s.isEmpty
  | .scalar (.bytes bs) _ => !bs.isEmpty
  | .scalar (.moment _) _ | .scalar (.tagged _) _ | .scalar .merge _ => true
  | .sequence items _ => !items.isEmpty
  | .mapping entries _ => !entries.isEmpty

/-- The kind of a node as diagnostics name it. -/
def typeName : Node → String
  | .scalar .null _ => "NoneType"
  | .scalar (.bool _) _ => "bool"
  | .scalar (.int _) _ => "int"
  | .scalar (.float _) _ => "float"
  | .scalar (.text _) _ | .scalar (.tagged _) _ | .scalar .merge _ => "str"
  | .scalar (.moment m) _ => m.typeName
  | .scalar (.bytes _) _ => "bytes"
  | .sequence _ _ => "list"
  | .mapping _ f => if f.role == .set then "set" else "dict"

/-- The text of a scalar inside a collection: texts are quoted. A truth value with an anchor is
a number. -/
def showScalar (f : Form) : Scalar → String
  | .null => "None"
  | .bool b =>
    if f.anchor.isNone then if b then "True" else "False" else if b then "1" else "0"
  | .int n => toString n
  | .float x => x.text
  | .text s | .tagged s => Text.quoted s
  | .moment m => m.shown
  | .bytes bs => Base64.shown bs
  | .merge => "'<<'"

mutual

/-- The text of a node as part of another one. -/
def shown : Node → String
  | .scalar v f => showScalar f v
  | .sequence items f =>
    if f.role == .pairs then "[" ++ Text.joinStrings ", " (shownKeys items) ++ "]"
    else "[" ++ Text.joinStrings ", " (shownItems items) ++ "]"
  | .mapping entries f =>
    if f.role == .set then
      "set(odict_keys([" ++ Text.joinStrings ", " (shownEntryKeys entries) ++ "]))"
    else "\x7b" ++ Text.joinStrings ", " (shownEntries entries) ++ "\x7d"

/-- The text of a key: a sequence is a tuple, a mapping a list of pairs. -/
def shownKey : Node → String
  | .scalar v f => showScalar f v
  | .sequence items _ =>
    match shownItems items with
    | [item] => "(" ++ item ++ ",)"
    | items => "(" ++ Text.joinStrings ", " items ++ ")"
  | .mapping entries _ =>
    "ordereddict([" ++ Text.joinStrings ", " (shownPairs entries) ++ "])"

/-- The texts of the items of a sequence. -/
def shownItems : List Node → List String
  | [] => []
  | n :: rest => shown n :: shownItems rest

/-- The texts of keys. -/
def shownKeys : List Node → List String
  | [] => []
  | n :: rest => shownKey n :: shownKeys rest

/-- The texts of the keys of entries. -/
def shownEntryKeys : List (Node × Node) → List String
  | [] => []
  | e :: rest => shownEntryKey e :: shownEntryKeys rest

/-- The text of the key of an entry. -/
def shownEntryKey : Node × Node → String
  | (k, _) => shownKey k

/-- The texts of the entries of a mapping. -/
def shownEntries : List (Node × Node) → List String
  | [] => []
  | e :: rest => shownEntry e :: shownEntries rest

/-- The text of an entry of a mapping. -/
def shownEntry : Node × Node → String
  | (k, v) => shownKey k ++ ": " ++ shown v

/-- The texts of the entries of a mapping that is a key. -/
def shownPairs : List (Node × Node) → List String
  | [] => []
  | e :: rest => shownPair e :: shownPairs rest

/-- The text of an entry of a mapping that is a key. -/
def shownPair : Node × Node → String
  | (k, v) => "(" ++ shownKey k ++ ", " ++ shown v ++ ")"

end

/-- The text of a node on its own: a text stands for itself, a moment for its date. -/
def display (n : Node) : String :=
  match n with
  | .scalar (.text s) _ | .scalar (.tagged s) _ => s
  | .scalar (.moment m) _ => m.text
  | .scalar .merge _ => "<<"
  | n => n.shown

/-- The text of a key on its own. -/
def displayKey (n : Node) : String :=
  if n.isCollection then n.shownKey else n.display

end Node

end MemberOrder
