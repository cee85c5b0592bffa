/-
  The parts that the tokens of a document make up. Scalars are still the texts they were
  written as. A part is known by its number, and an alias is the number of the part it names.
-/
import MemberOrder.Yaml.Looks
import MemberOrder.Yaml.TokenStream

namespace MemberOrder.Yaml

/-- What a part of a document holds. Other parts are named by their numbers. -/
inductive Content where
  | scalar (text : String) (style : ScalarStyle)
  | sequence (items : List Nat)
  | mapping (entries : List (Nat × Nat))
  deriving Repr, DecidableEq, Inhabited

/-- The word for what a part is. -/
def Content.kindName : Content → String
  | .scalar _ _ => "scalar"
  | .sequence _ => "sequence"
  | .mapping _ => "mapping"

/-- Whether a part is a sequence without items. -/
def Content.isEmptySequence : Content → Bool
  | .sequence items => items.isEmpty
  | _ => false

/-- A part of a document. -/
structure Part where
  content : Content
  tag : Tag
  start : Mark := {}
  /-- Whether a collection is written between brackets. -/
  flow : Bool := false
  anchor : Option String := none
  remarks : Remarks := {}
  deriving Repr, DecidableEq, Inhabited

/-- A document that is being put together. -/
structure Composition where
  stream : TokenStream
  parts : Array Part := #[]
  /-- The numbers of the parts with anchors, latest first. -/
  anchors : List (String × Nat) := []
  /-- The handles of tags and what they stand for. -/
  handles : List (String × String) := []

/-- A computation that puts a document together. -/
abbrev Composing (α : Type) := StateT Composition (Except Fault) α

/-- The handles that every document has. -/
def defaultHandles : List (String × String) := [("!", "!"), ("!!", coreTag "")]

/-- A tag's suffix with its percent escapes replaced. -/
def decodeSuffix : List Char → List Char
  | '%' :: a :: b :: rest => Char.ofNat (hexNumber [a, b]) :: decodeSuffix rest
  | c :: rest => c :: decodeSuffix rest
  | [] => []

/-- A tag that is not written. -/
def plainTag (name : String) : Tag := { suffix := name, name }

namespace Composing

/-- Reads on in the token stream. -/
def scanning {α : Type} (read : Scanning α) : Composing α := do
  let state ← get
  let (a, stream) ← read.run state.stream
  set { state with stream }
  return a

/-- The next token, which stays in the stream. -/
def peek : Composing Token := scanning TokenStream.peek

/-- Takes the next token. -/
def take : Composing Token := scanning TokenStream.take

/-- What kind of token is next. -/
def peekKind : Composing TokenKind := return (← peek).kind

/-- Whether the document follows a version after the first. -/
def isNewer : Composing Bool := return (← get).stream.isNewer

/-- Fails because of the next token. -/
def unexpected {α : Type} (problem : String → Problem) : Composing α := do
  let token ← peek
  throw (.at token.start.line (problem token.kind.name))

/-- Passes the remarks of a token on to the next one, unless a document ends there. -/
def pass (token : Token) (empty : Bool) : Composing Token := do
  let next ← peek
  match token.carried with
  | none => return token
  | some carried =>
    if next.kind == .streamEnd || next.kind == .documentStart then return token
    scanning (TokenStream.recarry fun target => return some (← carried.passTo empty target))
    return { token with carried := none }

/-- Passes remarks on as far as that is possible. -/
def tryPass (token : Token) : Composing Unit := do
  let next ← peek
  match token.carried with
  | none => return
  | some carried =>
    if next.kind == .streamEnd || next.kind == .documentStart then return
    match carried.passTo false next.carried with
    | .ok c => scanning (TokenStream.recarry fun _ => return some c)
    | .error _ => return

/-! ## Parts -/

/-- Adds a part. -/
def add (part : Part) : Composing Nat := do
  let state ← get
  let number := state.parts.size
  let anchors := match part.anchor with
    | none => state.anchors
    | some name => (name, number) :: state.anchors
  set { state with parts := state.parts.push part, anchors }
  return number

/-- Fills a collection that was added without its content. A closing bracket takes the place of
the opening one if it carries anything; of that, only what follows it counts. -/
def fill (number : Nat) (content : Content) (closing : Option Carried) : Composing Nat := do
  modify fun state => { state with
    parts := state.parts.modify number fun part => { part with
      content
      remarks := (closing.map fun c => { after := c.after }).getD part.remarks } }
  return number

/-- The tag of a scalar that has none, by its looks. -/
def looksTag (text : String) : Composing Tag := do
  let version := (← get).stream.version
  if version == (1, 1) || version == (1, 2) then
    return plainTag (looks (version == (1, 1)) text).tagName
  else throw (.failed (.version version.1 version.2))

/-- Adds a scalar without text. -/
def emptyScalar (mark : Mark) : Composing Nat := do
  add { content := .scalar "" .plain, tag := ← looksTag "", start := mark }

/-- What stands in front of a node: its anchor, its tag, and where the first of them is. -/
structure Properties where
  anchor : Option String := none
  tag : Option Tag := none
  start : Option Mark := none

/-- Whether a node has no tag that says what it is. -/
def Properties.isOpen (p : Properties) : Bool := p.tag.all (·.name == "!")

/-- The tag that a handle and a suffix make up. What a handle stands for is put in front of the
suffix, in which escapes are replaced where remarks are not kept. -/
def resolveTag (mark : Mark) (handle : Option String) (suffix : String) : Composing Tag := do
  let decoded := String.ofList (decodeSuffix suffix.toList)
  match handle with
  | none => return { suffix, name := decoded }
  | some h =>
    let state ← get
    match state.handles.lookup h with
    | some start =>
      return { handle, suffix, name := start ++ if state.stream.remarking then suffix else decoded }
    | none => throw (.at mark.line (.undefinedHandle h))

/-- Takes the anchor and the tag of a node, in either order. -/
def properties : Composing Properties := do
  match ← peekKind with
  | .anchor name =>
    let first ← take
    let _ ← pass first false
    match ← peekKind with
    | .tag handle suffix =>
      let second ← take
      let tag ← resolveTag second.start handle suffix
      return { anchor := name, tag := some tag, start := first.start }
    | _ => return { anchor := name, start := first.start }
  | .tag handle suffix =>
    let first ← take
    tryPass first
    match ← peekKind with
    | .anchor name =>
      let second ← take
      let tag ← resolveTag second.start handle suffix
      return { anchor := name, tag := some tag, start := second.start }
    | _ =>
      let tag ← resolveTag first.start handle suffix
      return { tag := some tag, start := first.start }
  | _ => return {}

/-- Adds a scalar. One without a tag of its own is a text in quotes, and else what it looks
like. -/
def scalar (p : Properties) (start : Mark) (text : String) (style : ScalarStyle)
    (carried : Option Carried) : Composing Nat := do
  let tag ← match p.tag with
    | some tag => if tag.name == "!" then looksTag text else pure tag
    | none => if style == .plain then looksTag text else pure (plainTag (coreTag "str"))
  add { content := .scalar text style, tag, start, anchor := p.anchor,
        remarks := Carried.remarks carried }

/-- Adds a collection without its content. -/
def collection (p : Properties) (start : Mark) (content : Content) (flow : Bool)
    (carried : Option Carried) : Composing Nat := do
  let name := match content with
    | .mapping _ => coreTag "map"
    | _ => coreTag "seq"
  let tag := if p.isOpen then plainTag name else p.tag.getD (plainTag name)
  add { content, tag, start, flow, anchor := p.anchor, remarks := Carried.remarks carried }

/-- The part that an alias names. -/
def aliased (token : Token) (name : String) : Composing Nat := do
  match (← get).anchors.lookup name with
  | some number => return number
  | none => throw (.at token.start.line (.undefinedAlias name))

/-- Takes the comma in front of an item, unless it is the first or there is none. -/
def comma (first : Bool) (closer : TokenKind) (bracket : Char) : Composing Unit := do
  let next ← peekKind
  if first || next == closer then return
  if next == .flowEntry then let _ ← take
  else unexpected (.expectedComma bracket)

mutual

/-- Reads a node. Block collections are read only in a block context, and a sequence without
indentation of its own only as the value or key of a block mapping. -/
def node : (fuel : Nat) → (block indentless : Bool) → Composing Nat
  | 0, _, _ => emptyScalar {}
  | fuel + 1, block, indentless => do
    match ← peekKind with
    | .alias name => aliased (← take) name
    | _ =>
      let p ← properties
      let next ← peek
      let start := p.start.getD next.start
      match next.kind, block, indentless with
      | .blockEntry, _, true =>
        scanning (TokenStream.recarry fun c => return c.map fun c => { c with after := none })
        let number ← collection p start (.sequence []) false none
        fill number (.sequence (← indentlessEntries fuel)) none
      | .scalar text style, _, _ =>
        let token ← take
        scalar p start text style token.carried
      | .flowSequenceStart, _, _ =>
        let number ← collection p start (.sequence []) true next.carried
        let _ ← take
        let (items, closing) ← flowItems fuel true
        fill number (.sequence items) closing
      | .flowMappingStart, _, _ =>
        let number ← collection p start (.mapping []) true next.carried
        let _ ← take
        let (entries, closing) ← flowEntries fuel true
        fill number (.mapping entries) closing
      | .blockSequenceStart, true, _ =>
        let number ← collection p start (.sequence []) false none
        let _ ← take
        fill number (.sequence (← blockItems fuel)) none
      | .blockMappingStart, true, _ =>
        let number ← collection p start (.mapping []) false none
        let _ ← take
        fill number (.mapping (← blockEntries fuel)) none
      | _, _, _ =>
        if p.start.isNone then unexpected .expectedContent
        else scalar p start "" .plain none

/-- Reads the items of a block sequence and its end. -/
def blockItems : (fuel : Nat) → Composing (List Nat)
  | 0 => return []
  | fuel + 1 => do
    match ← peekKind with
    | .blockEntry =>
      let dash ← take
      let _ ← pass dash false
      let item ← match ← peekKind with
        | .blockEntry | .blockEnd => emptyScalar dash.stop
        | _ => node fuel true false
      return item :: (← blockItems fuel)
    | .blockEnd =>
      let _ ← take
      return []
    | _ => unexpected .expectedBlockEnd

/-- Reads the items of a sequence that is not indented against its key. The remarks in front of
what follows it are its own. -/
def indentlessEntries : (fuel : Nat) → Composing (List Nat)
  | 0 => return []
  | fuel + 1 => do
    match ← peekKind with
    | .blockEntry =>
      let dash ← take
      let _ ← pass dash false
      let item ← match ← peekKind with
        | .blockEntry | .key | .value | .blockEnd => emptyScalar dash.stop
        | _ => node fuel true false
      return item :: (← indentlessEntries fuel)
    | _ =>
      scanning (TokenStream.recarry fun c => return c.map Carried.withoutBefore)
      return []

/-- Reads the entries of a block mapping and its end. A value without a key has an empty one,
but not in the first version. -/
def blockEntries : (fuel : Nat) → Composing (List (Nat × Nat))
  | 0 => return []
  | fuel + 1 => do
    let next ← peek
    if next.kind == .key then
      let mark ← take
      let _ ← pass mark false
      let key ← match ← peekKind with
        | .key | .value | .blockEnd => emptyScalar mark.stop
        | _ => node fuel true true
      let value ← blockValue fuel
      return (key, value) :: (← blockEntries fuel)
    else if next.kind == .value && (← isNewer) then
      let key ← emptyScalar next.start
      let value ← blockValue fuel
      return (key, value) :: (← blockEntries fuel)
    else if next.kind == .blockEnd then
      let token ← take
      let _ ← pass token false
      return []
    else unexpected .expectedBlockEnd

/-- Reads the value of an entry of a block mapping. A missing value stands where the next token
ends, unless the colon kept a remark. -/
def blockValue : (fuel : Nat) → Composing Nat
  | 0 => emptyScalar {}
  | fuel + 1 => do
    match ← peekKind with
    | .value =>
      let mark ← take
      let next ← peekKind
      let mark ← if next == .key then pure mark else pass mark (next != .value)
      match next with
      | .key | .value | .blockEnd =>
        if mark.carried.isSome then emptyScalar mark.stop
        else
          let after ← peek
          scanning (TokenStream.recarry fun c => return c.map Carried.onlyBefore)
          emptyScalar after.stop
      | _ => node fuel true true
    | _ => emptyScalar (← peek).start

/-- Reads the items of a flow sequence, and what its closing bracket carries. -/
def flowItems : (fuel : Nat) → (first : Bool) → Composing (List Nat × Option Carried)
  | 0, _ => return ([], none)
  | fuel + 1, first => do
    comma first .flowSequenceEnd ']'
    match ← peekKind with
    | .flowSequenceEnd => return ([], (← take).carried)
    | .key =>
      let mark ← peek
      let pair ← collection {} mark.start (.mapping []) true none
      let mark ← take
      let key ← match ← peekKind with
        | .value | .flowEntry | .flowSequenceEnd => emptyScalar mark.stop
        | _ => node fuel false false
      let value ← flowValue fuel .flowSequenceEnd
      let pair ← fill pair (.mapping [(key, value)]) none
      let (items, closing) ← flowItems fuel false
      return (pair :: items, closing)
    | _ =>
      let item ← node fuel false false
      let (items, closing) ← flowItems fuel false
      return (item :: items, closing)

/-- Reads the entries of a flow mapping, and what its closing bracket carries. -/
def flowEntries : (fuel : Nat) → (first : Bool) → Composing (List (Nat × Nat) × Option Carried)
  | 0, _ => return ([], none)
  | fuel + 1, first => do
    comma first .flowMappingEnd '\x7d'
    let next ← peek
    if next.kind == .flowMappingEnd then return ([], (← take).carried)
    let (key, value) ←
      if next.kind == .key then do
        let mark ← take
        let key ← match ← peekKind with
          | .value | .flowEntry | .flowMappingEnd => emptyScalar mark.stop
          | _ => node fuel false false
        pure (key, ← flowValue fuel .flowMappingEnd)
      else if next.kind == .value && (← isNewer) then do
        let key ← emptyScalar next.stop
        pure (key, ← flowValue fuel .flowMappingEnd)
      else do
        let key ← node fuel false false
        pure (key, ← emptyScalar (← peek).start)
    let (entries, closing) ← flowEntries fuel false
    return ((key, value) :: entries, closing)

/-- Reads the value of an entry of a flow collection. -/
def flowValue : (fuel : Nat) → (closer : TokenKind) → Composing Nat
  | 0, _ => emptyScalar {}
  | fuel + 1, closer => do
    match ← peekKind with
    | .value =>
      let mark ← take
      let next ← peekKind
      if next == .flowEntry || next == closer then emptyScalar mark.stop
      else node fuel false false
    | _ => emptyScalar (← peek).start

end

/-! ## Documents -/

/-- Takes the directives in front of a document. -/
def directives : (fuel : Nat) → (versioned : Bool) → Composing Unit
  | 0, _ => return
  | fuel + 1, versioned => do
    match ← peekKind with
    | .directive d =>
      let token ← take
      match d with
      | .version major _ =>
        if versioned then throw (.at token.start.line .repeatedVersion)
        if major != 1 then throw (.at token.start.line .foreignVersion)
        directives fuel true
      | .handle handle start =>
        if ((← get).handles.lookup handle).isSome then
          throw (.at token.start.line (.repeatedHandle handle))
        modify fun s => { s with handles := (handle, start) :: s.handles }
        directives fuel versioned
      | .other _ => directives fuel versioned
    | _ => return

/-- Takes markers of the end of a document. -/
def documentEnds : (fuel : Nat) → Composing Unit
  | 0 => return
  | fuel + 1 => do
    match ← peekKind with
    | .documentEnd =>
      let _ ← take
      documentEnds fuel
    | _ => return

/-- Takes the directives and the marker of a document that has them. -/
def documentStart (fuel : Nat) : Composing Token := do
  modify fun s => { s with handles := [] }
  directives fuel false
  modify fun s => { s with handles := s.handles ++ defaultHandles }
  match ← peekKind with
  | .documentStart => take
  | _ => unexpected .expectedDocument

/-- Makes sure that nothing follows a document. -/
def lastDocument (fuel : Nat) : Composing Unit := do
  let next ← peek
  if next.kind == .documentEnd then
    let mark ← take
    let next ← peek
    if next.kind != .streamEnd && mark.stop.line == next.start.line then
      throw (.at next.start.line (.afterDocument next.kind.name))
    if !next.kind.isDocumentMark && !(← get).stream.isFirst then
      throw (.at next.start.line .secondDocument)
  documentEnds fuel
  match ← peekKind with
  | .streamEnd => return
  | _ =>
    let token ← documentStart fuel
    throw (.at token.start.line .secondDocument)

/-- Reads the only document of a stream; nothing when it has none. -/
def document (fuel : Nat) : Composing (Option Nat) := do
  let start ← take
  let _ ← pass start false
  let first ← peek
  if first.kind == .streamEnd then return none
  if !first.kind.isDocumentMark then
    modify fun s => { s with handles := defaultHandles }
    let root ← node fuel true false
    lastDocument fuel
    return some root
  let _ ← documentStart fuel
  let root ← match ← peekKind with
    | .directive _ | .documentStart | .documentEnd | .streamEnd => emptyScalar (← peek).start
    | _ => node fuel true false
  lastDocument fuel
  return some root

end Composing

/-- A character that a document may hold. -/
def isAllowed (c : Char) : Bool :=
  let n := c.toNat
  n == 9 || n == 10 || n == 13 || n == 0x85 || (0x20 ≤ n && n ≤ 0x7E)
    || (0xA0 ≤ n && n ≤ 0xD7FF) || (0xE000 ≤ n && n ≤ 0xFFFD) || 0x10000 ≤ n

/-- A document put together: its parts, the number of its root, and the version it follows. -/
structure Composed where
  parts : Array Part
  root : Nat
  version : Nat × Nat

/-- Puts the document of a text together, with or without its remarks. -/
def compose (cs : List Char) (remarking : Bool) : Except Fault (Option Composed) :=
  match cs.find? (!isAllowed ·) with
  | some c => .error (.forbidden c.toNat (cs.idxOf c))
  | none => do
    let start : Composition := { stream := TokenStream.ofText cs remarking }
    let (root, state) ← (Composing.document (4 * cs.length + 16)).run start
    return root.map fun root => ⟨state.parts, root, state.stream.version⟩

end MemberOrder.Yaml
