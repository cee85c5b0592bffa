/-
  Flow collections written anew. What fits is written on one line; comments that stand inside
  nested collections are kept.
-/
import MemberOrder.Layout.Written
import MemberOrder.Yaml.Anchor
import MemberOrder.Yaml.Key
import MemberOrder.Yaml.Page
import MemberOrder.Yaml.ScalarType

namespace MemberOrder.Yaml

/-! ## Tags -/

/-- A tag as it is written. -/
def writtenTag (tag : Tag) : String :=
  let core := coreTag ""
  if tag.name == "!" || tag.name == "!!" then tag.name
  else
    match tag.handle with
    | some handle => handle ++ tag.suffix
    | none =>
      if Text.startsWith tag.name "!" then tag.suffix
      else if Text.startsWith tag.name core && core.length < tag.name.length then
        "!!" ++ String.ofList (tag.suffix.toList.drop core.length)
      else "!<" ++ tag.suffix ++ ">"

/-- A tag that every document knows. -/
def knownTag (name : String) : Tag := { suffix := coreTag name, name := coreTag name }

/-- The tag of a form as it is written, unless it is one that needs no writing. -/
def ownTag? (f : Form) (known : String) : Option String :=
  f.tag.bind fun tag =>
    let tag :=
      if Text.startsWith tag.name "!!" then knownTag (String.ofList (tag.name.toList.drop 2))
      else tag
    if tag.name == coreTag known then none else some (writtenTag tag)

/-- The tag of a collection as it is written, if it is. -/
def collectionTag? : Node → Option String
  | .scalar _ _ => none
  | .sequence _ f => ownTag? f "seq"
  | .mapping _ f =>
    match f.role with
    | .set => some "!!set"
    | .orderedMap => some "!!omap"
    | _ => ownTag? f "map"

/-! ## Scalars -/

/-- A scalar that is ready to be written. -/
structure ScalarText where
  text : List Char
  tag : Tag
  style : ScalarStyle := .plain
  /-- The text whose length decides on the form of a key. -/
  measured : List Char := text

/-- The text, the tag and the style of a scalar. -/
def scalarText (value : Scalar) (f : Form) : ScalarText :=
  match value with
  | .null => { text := "null".toList, tag := knownTag "null", measured := [] }
  | .bool b => { text := (if b then "true" else "false").toList, tag := knownTag "bool" }
  | .int n => { text := (f.written.textOr (toString n)).toList, tag := knownTag "int" }
  | .float x => { text := (f.written.textOr (writtenShortest x)).toList, tag := knownTag "float" }
  | .text s => { text := s.toList, tag := knownTag "str", style := f.style }
  | .moment m => { text := m.written.toList, tag := knownTag "timestamp" }
  | .bytes bs => { text := Base64.encodeLines bs, tag := knownTag "binary" }
  | .merge => { text := "<<".toList, tag := knownTag "merge" }
  | .tagged s =>
    let tag := f.tag.getD (knownTag "str")
    { text := s.toList, style := f.style
      tag := if tag.handle == some "!!" then { tag with name := "!! " ++ tag.suffix } else tag }

namespace ScalarText

/-- Whether a scalar reads back with its tag when it is written bare. -/
def isImplied (s : ScalarText) : Bool := (looks false (String.ofList s.text)).tagName == s.tag.name

/-- Whether a scalar is written as nothing. -/
def isVoid (s : ScalarText) : Bool := s.text.isEmpty && s.tag.handle == some "!!"

/-- How a scalar is marked off. A tag of its own keeps it from being misread. -/
def marking (s : ScalarText) (isKey : Bool) : Marking :=
  let isCore := Text.startsWith s.tag.name (coreTag "")
  if s.isVoid then .bare else markingOf s.style isKey (s.isImplied || !isCore) s.text

/-- Whether the tag of a scalar is written. -/
def showsTag (s : ScalarText) (isKey : Bool) : Bool :=
  if s.marking isKey == .bare && !s.isVoid then !s.isImplied else s.tag.name != coreTag "str"

end ScalarText

/-- The longest key, its tag and its anchor included, that is written without a mark. -/
def simpleKeyLimit : Nat := 128

/-- Whether a key is written without a mark in front. -/
def isSimpleKey (anchor : Option String) (isAlias : Bool) (key : Node) : Bool :=
  let extra := (anchor.map (·.length)).getD 0
  match key with
  | .scalar value f =>
    let s := scalarText value f
    if isAlias then extra < simpleKeyLimit
    else
      extra + (writtenTag s.tag).length + s.measured.length < simpleKeyLimit
        && !s.measured.any isInnerBreak
  | _ => true

/-! ## Writing -/

/-- A page, and which anchored nodes are on it already. -/
structure Draft where
  page : Page := {}
  written : List Nat := []

/-- A computation that writes on. -/
abbrev Writing (α : Type) := StateM Draft α

namespace Writing

/-- Writes on the page. -/
def draw (f : Page → Page) : Writing Unit := modify fun d => { d with page := f d.page }

/-- Writes the anchor of a node, or its alias when it is written already. -/
def anchor (s : Survey) (n : Node) : Writing Bool := do
  match anchorName? s n with
  | none => return false
  | some name =>
    let isWritten := (← get).written.contains n.form.id
    draw fun p =>
      { p.word ((if isWritten then '*' else '&') :: name.toList) with holdsBreak := false }
    if !isWritten && n.form.id != 0 then modify fun d => { d with written := n.form.id :: d.written }
    return isWritten

/-- Writes the remark that follows a node. -/
def after (f : Form) : Writing Unit :=
  match f.remarks.after with
  | some r => draw (Page.remarkAfter r)
  | none => return

/-- Writes a scalar. -/
def scalar (value : Scalar) (f : Form) (isKey : Bool) : Writing Unit := do
  let s := scalarText value f
  if s.showsTag isKey then draw (Page.word (writtenTag s.tag).toList)
  draw (Page.scalar (s.marking isKey) s.text (!isKey))
  after f

/-- Writes an opening bracket, with the remarks in front of it. `around` tells of each
collection around, innermost first, whether it is a sequence. -/
def opening (bracket : List Char) (isSequence : Bool) (around : List Bool) (f : Form) :
    Writing Unit := do
  let isFresh := (← get).page.isFresh
  let isRemarked := !f.remarks.before.isEmpty
  let inSequence := around.head? == some true
  if isRemarked then
    draw (Page.remarksBefore f.remarks.before)
    if isSequence then draw fun p => { p with isFresh, holdsBreak := !isFresh }
  draw fun p =>
    let blanks :=
      if inSequence then if 2 ≤ around.length then 1 - p.column else 0
      else if isRemarked then 2 else 0
    p.sign (List.replicate blanks ' ' ++ bracket) true true

/-- Writes a closing bracket and the remark that follows it. -/
def closing (bracket : List Char) (f : Form) (isEmpty : Bool) : Writing Unit := do
  if !bracket.isEmpty then draw (Page.sign bracket false false)
  if f.remarks.after.isNone && !isEmpty then draw fun p => { p with holdsBreak := false }
  after f

/-- Writes the comma in front of an item that is not the first, and breaks a wide line. -/
def separator (isFirst : Bool) : Writing Unit := do
  if !isFirst then draw (Page.sign [','] false false)
  draw Page.wrap

/-- The brackets around a mapping. One with a single entry needs none in a sequence. -/
def braces (count : Nat) (around : List Bool) : List Char × List Char :=
  if count == 1 && around.head? == some true then ([], []) else (['\x7b'], ['\x7d'])

/-- An entry of an ordered mapping as the form of a mapping that holds it alone. The remarks
in front of its key go in front of it. -/
def entryForm (key : Node) : Form := { remarks := { before := key.form.remarks.before } }

mutual

/-- Writes a node. -/
def node (s : Survey) : Node → (isKey isSimple : Bool) → (around : List Bool) → Writing Unit
  | .scalar value f, _, isSimple, _ => do
    if ← anchor s (.scalar value f) then return
    scalar value f isSimple
  | .sequence items f, isKey, _, around => do
    let isAlias ← if isKey then pure false else anchor s (.sequence items f)
    if isAlias then return
    match collectionTag? (.sequence items f) with
    | some tag => draw (Page.word tag.toList)
    | none => pure ()
    opening ['['] true around f
    writeItems s items true (true :: around)
    closing [']'] f items.isEmpty
  | .mapping entries f, isKey, _, around => do
    let isAlias ← if isKey then pure false else anchor s (.mapping entries f)
    if isAlias then return
    match collectionTag? (.mapping entries f) with
    | some tag => draw (Page.word tag.toList)
    | none => pure ()
    if f.role == .orderedMap then
      opening ['['] true around f
      writeOrdered s entries true (true :: around)
      closing [']'] f entries.isEmpty
    else
      let (left, right) := braces entries.length around
      opening left false around f
      writeEntries s (f.role == .set) entries true (false :: around)
      closing right f entries.isEmpty

/-- Writes the items of a sequence. -/
def writeItems (s : Survey) : List Node → (isFirst : Bool) → (around : List Bool) → Writing Unit
  | [], _, _ => return
  | n :: rest, isFirst, around => do
    separator isFirst
    node s n false false around
    writeItems s rest false around

/-- Writes the entries of a mapping that is written as a sequence. -/
def writeOrdered (s : Survey) : List (Node × Node) → (isFirst : Bool) → (around : List Bool) →
    Writing Unit
  | [], _, _ => return
  | e :: rest, isFirst, around => do
    separator isFirst
    opening [] false around (entryForm e.1)
    writeEntry s false e true (false :: around)
    writeOrdered s rest false around

/-- Writes the entries of a mapping, or only their keys. -/
def writeEntries (s : Survey) (keysOnly : Bool) : List (Node × Node) → (isFirst : Bool) →
    (around : List Bool) → Writing Unit
  | [], _, _ => return
  | e :: rest, isFirst, around => do
    writeEntry s keysOnly e isFirst around
    writeEntries s keysOnly rest false around

/-- Writes an entry of a mapping, or only its key. -/
def writeEntry (s : Survey) (keysOnly : Bool) : Node × Node → (isFirst : Bool) →
    (around : List Bool) → Writing Unit
  | (key, value), isFirst, around => do
    separator isFirst
    let isAlias := (← get).written.contains key.form.id
    let isSimple := isSimpleKey (anchorName? s key) isAlias key
    if !isSimple then draw (Page.word ['?'])
    node s key true isSimple around
    if !isSimple then
      draw Page.wrap
      draw (Page.word [':'])
    else if !keysOnly then draw (Page.sign [':'] false false)
    if !keysOnly then node s value false false around

end

end Writing

/-! ## Root collections -/

/-- The key that a name stands for: digits, after minus signs, are an integer, and all else is
a text in its form. -/
def keyOfName (name : String) (form : Form) : Except Layout.LayoutError Node :=
  let digits := name.toList.dropWhile (· == '-')
  if digits.isEmpty || !digits.all Text.isDigit then .ok (.scalar (.text name) form)
  else do
    let n ← (Text.readInteger name.toList).mapError .keyIsNoNumber
    return .scalar (.int n) {}

/-- Sets the value of a key; a key that is there already keeps its place. -/
def setEntry (entries : List (Node × Node)) (e : Node × Node) : List (Node × Node) :=
  if entries.any (sameKey e.1 ·.1) then
    entries.map fun d => if sameKey e.1 d.1 then (d.1, e.2) else d
  else entries ++ [e]

/-- Whether a collection keeps the remarks on it apart from its place. A sequence with a tag of
its own does not. -/
def ownsRemarks : Node → Bool
  | .scalar _ _ => false
  | .sequence _ f => f.tag.isNone
  | .mapping _ _ => true

/-- The node of a member's value. Remarks on it stay only where it is a collection that was the
value of a key. -/
def valueNode (kind : EntityKind) : Value → Node
  | .text s => Node.ofText s
  | .node n =>
    if kind == .yamlObject && ownsRemarks n then n else n.withForm { n.form with remarks := {} }

/-- The collection that members in their order make up. -/
def collectionOf (kind : EntityKind) (members : List Member) : Except Layout.LayoutError Node :=
  let values := members.map fun m => valueNode kind m.info.value
  if kind == .yamlObject then do
    let keys ← members.mapM fun m => keyOfName m.name m.info.keyForm
    return .mapping ((keys.zip values).foldl setEntry []) { flow := true }
  else .ok (.sequence values { flow := true })

mutual

/-- The first number that cannot be written. -/
def unwritable? : Node → Option NumberProblem
  | .scalar _ f =>
    match f.written with
    | .never problem => some problem
    | _ => none
  | .sequence items _ => unwritableIn? items
  | .mapping entries _ => unwritableAmong? entries

/-- The first number among nodes that cannot be written. -/
def unwritableIn? : List Node → Option NumberProblem
  | [] => none
  | n :: rest => (unwritable? n).or (unwritableIn? rest)

/-- The first number among entries that cannot be written. -/
def unwritableAmong? : List (Node × Node) → Option NumberProblem
  | [] => none
  | e :: rest => (unwritablePair? e).or (unwritableAmong? rest)

/-- The first number of an entry that cannot be written. -/
def unwritablePair? : Node × Node → Option NumberProblem
  | (key, value) => (unwritable? key).or (unwritable? value)

end

/-- The text of a flow collection. -/
def flowText (root : Node) : List Char :=
  let s := survey root false {}
  ((Writing.node s (s.share root false) false false []).run {}).2.page.text

/-- The text of an entity that is a flow collection. -/
def writeFlow (o : Options) (e : Entity) : Except Layout.LayoutError String := do
  let root ← collectionOf e.kind e.members
  if let some problem := unwritable? root then throw (.flow e.name problem)
  let text := ((flowText root).reverse.dropWhile (· == '\n')).reverse
  return String.ofList (Layout.withOptionsEnding o e.sourceText.toList text)

end MemberOrder.Yaml
