/-
  YAML documents as entities. A stream is cut into documents at its markers; each document
  whose root is a collection is an entity.
-/
import MemberOrder.Yaml.Entries
import MemberOrder.Yaml.Loaded

namespace MemberOrder.Yaml

/-- Whether a line is a marker between documents: three times a character, and a comment. -/
def isMarkerLine (mark : Char) (line : List Char) : Bool :=
  match line with
  | a :: b :: c :: rest =>
    a == mark && b == mark && c == mark
      && (match rest.dropWhile fun ch => ch == ' ' || ch == '\t' with
        | [] | '#' :: _ => true
        | _ => false)
  | _ => false

/-- The ranges of lines between markers. -/
def rangesFrom : List (List Char) → (first number : Nat) → List (Nat × Nat)
  | [], first, number => if first < number then [(first, number - 1)] else []
  | line :: rest, first, number =>
    if isMarkerLine '-' line || isMarkerLine '.' line then
      let more := rangesFrom rest (number + 1) (number + 1)
      if first < number then (first, number - 1) :: more else more
    else rangesFrom rest first (number + 1)

/-- The ranges of lines that hold a document: more than directives and comments. -/
def documentRanges (t : LineTable) : List (Nat × Nat) :=
  (rangesFrom t.lines.toList 1 1).filter fun (first, last) =>
    (numbersFrom first last).any fun n => !t.isIdle n && (t.line n).head? != some '%'

/-- The text of a range of lines. -/
def rangeText (t : LineTable) (first last : Nat) : List Char :=
  Text.join ['\n'] ((numbersFrom first last).map t.line)

/-- The kind of entity that a root node makes. -/
def entityKind (root : Node) : EntityKind := if isMapping root then .yamlObject else .yamlArray

/-- The first line of a range that holds data, or its last line. -/
def firstBusy (t : LineTable) (last : Nat) : (fuel : Nat) → (first : Nat) → Nat
  | 0, first => first
  | fuel + 1, first =>
    if first < last && t.isIdle first then firstBusy t last fuel (first + 1) else first

/-- The last line of a range that holds data, or its first line. -/
def lastBusy (t : LineTable) (first : Nat) : (last : Nat) → Nat
  | 0 => 0
  | last + 1 => if first < last + 1 && t.isIdle (last + 1) then lastBusy t first last else last + 1

/-- What is kept of the form of a key: the quotes and the anchor of a text with a tag. -/
def keptForm : Node → Form
  | .scalar (.tagged _) f => { style := f.style, anchor := f.anchor }
  | _ => {}

/-- The entity of a flow collection at the root. -/
def flowEntity (fileType : FileType) (t : LineTable) (root : Node) (name : String)
    (first last : Nat) : Entity :=
  let first := firstBusy t last (last - first) first
  let last := lastBusy t first last
  let start := t.offset first (t.indent first)
  let stop := t.lineEnd last
  let infos : List MemberInfo := match root with
    | .sequence items _ => items.mapIdx fun i item => { name := toString i, value := .node item }
    | _ => (entriesOf root).map fun (key, value) =>
      { name := key.displayKey, keyForm := keptForm key, value := .node value }
  { kind := entityKind root, name
    members := infos.map fun info => .leaf { info with line := first }
    startLine := first, endLine := last
    sourceText := t.source.cut start stop
    span := some (t.span start stop)
    inline := true
    fileType }

/-- The entity of a block collection. A comment block that opens the document is the
document's and not the first entry's. -/
def blockEntity (fileType : FileType) (t : LineTable) (root : Node) (name : String)
    (first last : Nat) (head : Member) (rest : List Member) : Entity :=
  let contentStart := (numbersFrom first last).find? (!t.isBlank ·)
  let opens := match head.info.comments with
    | c :: _ => some c.line == contentStart
    | [] => false
  let (detached, head) :=
    if opens then
      let start := (head.info.span.map (·.start)).getD 0
      (head.info.comments, head.mapInfo fun i =>
        { i with comments := [], unit := some (t.span start head.unitStop) })
    else ([], head)
  let members := head :: rest
  let final := members.getLast?.getD head
  let start := head.unitStart
  let stop := final.unitStop
  let indent := String.ofList (List.replicate (t.indent final.info.line) ' ')
  { kind := entityKind root, name, members
    startLine := t.index.lineAt start, endLine := t.index.lineAt (stop - 1)
    leading := detached
    sourceText := t.source.cut start stop
    span := some (t.span start stop), body := some (t.span start stop)
    indent, baseIndent := indent
    fileType }

/-- What a document adds to a reading. -/
def readDocument (fileType : FileType) (t : LineTable) (name : String) (first last : Nat) :
    Except Fault Reading := do
  match ← read (rangeText t first last) true with
  | none => return {}
  | some root =>
    if !isDivided root then return {}
    if root.form.flow then return { entities := [flowEntity fileType t root name first last] }
    match membersOf t (first - 1) root (first - 1) last with
    | some (head :: rest) =>
      return { entities := [blockEntity fileType t root name first last head rest] }
    | _ => return { errors := [.noEntries name] }

/-- Reads documents one after the other. A failure ends the reading; any other fault concerns
its document only. -/
def readDocuments (fileType : FileType) (t : LineTable) (nameOf : Nat → String) :
    (index : Nat) → List (Nat × Nat) → Reading
  | _, [] => {}
  | index, (first, last) :: rest =>
    match readDocument fileType t (nameOf index) first last with
    | .error (.failed failure) => { errors := [.yaml (first - 1) (.failed failure)] }
    | .error fault =>
      let more := readDocuments fileType t nameOf (index + 1) rest
      { more with errors := .yaml (first - 1) fault :: more.errors }
    | .ok r =>
      let more := readDocuments fileType t nameOf (index + 1) rest
      ⟨r.entities ++ more.entities, r.errors ++ more.errors⟩

/-- Reads the documents of a YAML stream. -/
def readStream (fileType : FileType) (t : Text) : Reading :=
  let table := LineTable.ofText t
  let ranges := documentRanges table
  let nameOf (index : Nat) :=
    if 1 < ranges.length then "document-" ++ toString index else "root"
  readDocuments fileType table nameOf 0 ranges

end MemberOrder.Yaml
