/-
  The value of a document: every scalar denotes something, no mapping has a key twice, and the
  entries that merges lend are known.

  Parts are built one after the other. A collection is filled at once inside a mapping, and
  else only after the collections around it; which of two faults is reported depends on that.
  Where a collection holds itself while it is being filled, nothing stands in its place.

  The writing of a document is either kept, with its remarks, anchors and foreign tags, or it
  is not; then a foreign tag is a fault.
-/
import MemberOrder.Yaml.Composed
import MemberOrder.Yaml.Key
import MemberOrder.Yaml.ScalarType

namespace MemberOrder.Yaml

/-- What stands at a place of a collection. -/
inductive Place where
  /-- A part; its remarks are those of the place, if it has any. -/
  | part (number : Nat) (remarks : Option Remarks)
  /-- Nothing: the part that starts here is still being built. -/
  | gap (start : Mark) (remarks : Option Remarks)
  /-- The parts that a merge lists. -/
  | list (numbers : List Nat)
  deriving Repr, DecidableEq, Inhabited

/-- What a part has become. The keys of a mapping are finished nodes. -/
inductive Made where
  | scalar (value : Scalar) (form : Form)
  | sequence (items : List Place) (form : Form)
  | mapping (entries : List (Node × Place)) (form : Form)
  | pairs (entries : List (Place × Place)) (form : Form)
  deriving Inhabited

/-- A document that is being built. -/
structure Loader where
  parts : Array Part
  version : Nat × Nat := (1, 2)
  /-- Whether the writing is kept. -/
  keeping : Bool := true
  /-- What the parts have become so far. -/
  made : Array (Option Made)
  /-- The parts that are being built, innermost first. -/
  making : List Nat := []
  /-- The collections that are still to be filled. -/
  waiting : List Nat := []
  /-- Whether collections are filled at once. -/
  deep : Bool := false

/-- A computation that builds a document. -/
abbrev Loading (α : Type) := StateT Loader (Except Fault) α

/-! ## Nodes out of parts -/

/-- A node at a place with remarks of its own. -/
def withRemarks (remarks : Option Remarks) (n : Node) : Node :=
  match remarks with
  | none => n
  | some remarks => n.withForm { n.form with remarks }

/-- The node at a place. A part inside itself is followed once. -/
def nodeAt (made : Array (Option Made)) : (fuel : Nat) → (path : List Nat) → Place → Node
  | 0, _, _ => .scalar .null {}
  | _, _, .gap start remarks =>
    withRemarks remarks (.scalar .null { line := start.line, column := start.column })
  | fuel + 1, path, .list numbers =>
    .sequence (numbers.map fun n => nodeAt made fuel path (.part n none)) { flow := true }
  | fuel + 1, path, .part number remarks =>
    let node := nodeAt made fuel (number :: path)
    let isCut := 1 < path.count number
    withRemarks remarks (match made[number]?.join with
      | none => .scalar .null {}
      | some (.scalar value form) => .scalar value form
      | some (.sequence items form) => .sequence (if isCut then [] else items.map node) form
      | some (.mapping entries form) =>
        .mapping (if isCut then [] else entries.map fun (k, v) => (k, node v)) form
      | some (.pairs entries form) =>
        .sequence (if isCut then [] else entries.map fun (k, v) => .sequence [node k, node v] {}) form)

namespace Loading

/-- The node that stands at a place so far. -/
def nodeOf (p : Place) : Loading Node := do
  let s ← get
  return nodeAt s.made (2 * s.parts.size + 2) [] p

/-- A part of the document. -/
def part (number : Nat) : Loading Part := return (← get).parts.getD number default

/-- Records what a part has become. -/
def record (number : Nat) (m : Made) : Loading Unit :=
  modify fun s => { s with made := s.made.setIfInBounds number (some m) }

/-- Shows the entries that a mapping has so far to what is built inside it. -/
def showEntries (number : Nat) (entries : List (Node × Place)) : Loading Unit :=
  modify fun s => { s with
    made := s.made.modify number fun m =>
      match m with
      | some (.mapping _ form) => some (.mapping entries form)
      | m => m }

/-- The remarks on a part. -/
def remarksOf (number : Nat) : Loading Remarks := return (← part number).remarks

/-- Takes the remarks off a part. -/
def takeRemarks (number : Nat) : Loading Remarks := do
  let remarks ← remarksOf number
  if remarks != {} then
    modify fun s => { s with
      parts := s.parts.modify number fun p => { p with remarks := {} } }
  return remarks

/-! ## Forms -/

/-- Whether an anchor has the form of a generated one, which is not kept. -/
def isGenerated (name : String) : Bool :=
  match name.toList with
  | 'i' :: 'd' :: digits =>
    3 ≤ (digits.take 3).length && (digits.take 3).all Text.isDecimal && digits != ['0', '0', '0']
  | _ => false

/-- The form of a part, without its anchor. -/
def formOf (number : Nat) (p : Part) (role : Role) : Form :=
  { id := number + 1, line := p.start.line, column := p.start.column, flow := p.flow, role
    style := match p.content with
      | .scalar _ style => style
      | _ => .plain }

/-- The form of a collection as it is at the moment. -/
def collectionForm (number : Nat) (role : Role) : Loading Form := do
  let p ← part number
  let form := formOf number p role
  if !(← get).keeping then return form
  return { form with
    anchor := if role == .orderedMap || role == .pairs then none else p.anchor.filter (!isGenerated ·)
    remarks := p.remarks }

/-! ## Kinds of parts -/

/-- What a tag makes of a part. -/
inductive Maker where
  | scalar
  | mapping
  | sequence
  | set
  | orderedMap
  | pairs
  | foreign
  deriving Repr, DecidableEq

/-- The role of what is made. -/
def Maker.role : Maker → Role
  | .set => .set
  | .orderedMap => .orderedMap
  | .pairs => .pairs
  | _ => .plain

/-- What a tag makes of a part. The tag of texts is kept where it is written with a handle. -/
def makerOf (keeping : Bool) (tag : Tag) : Maker :=
  let name := tag.name
  if name == coreTag "map" then .mapping
  else if name == coreTag "seq" then .sequence
  else if name == coreTag "set" then .set
  else if name == coreTag "omap" then .orderedMap
  else if name == coreTag "pairs" then .pairs
  else if name == coreTag "str" then if keeping && tag.handle.isSome then .foreign else .scalar
  else if ["null", "bool", "int", "float", "binary", "timestamp"].any (coreTag · == name) then .scalar
  else .foreign

/-- Fails because a part is of another kind than its tag says. -/
def otherNode {α : Type} (p : Part) (expected : String) : Loading α :=
  throw (.at p.start.line (.otherNode expected p.content.kindName))

/-- The entries of a part that has to be a mapping. -/
def entriesOfPart (p : Part) : Loading (List (Nat × Nat)) :=
  match p.content with
  | .mapping entries => return entries
  | _ => otherNode p "mapping"

/-- The entries of a part that has to be a sequence of mappings with one entry each. -/
def singleEntries (p : Part) : Loading (List Nat) :=
  match p.content with
  | .sequence items => return items
  | content => throw (.at p.start.line (.otherSequence content.kindName))

/-- The entry of a part that has to be a mapping with one entry. -/
def singleEntry (number : Nat) : Loading (Nat × Nat) := do
  let p ← part number
  match p.content with
  | .mapping [entry] => return entry
  | .mapping entries => throw (.at p.start.line (.entryCount entries.length))
  | content => throw (.at p.start.line (.otherEntry content.kindName))

/-- A scalar. -/
def scalar (number : Nat) (p : Part) : Loading Made := do
  let s ← get
  match p.content with
  | .scalar text _ =>
    match denoted? s.version s.keeping p.tag.name p.start.line text with
    | none => throw (.at p.start.line (.unknownTag p.tag.name))
    | some outcome =>
      let d ← outcome
      let anchor := if s.keeping && d.anchored then p.anchor else none
      return .scalar d.value { formOf number p .plain with written := d.written, anchor }
  | _ => otherNode p "scalar"

/-! ## Merges -/

/-- Whether a part is the key of a merge. -/
def isMergePart (p : Part) : Bool := p.tag.name == coreTag "merge"

/-- Makes a text of a key that stands for the default value. -/
def settleKey (number : Nat) : Loading Unit := do
  if (← part number).tag.name == coreTag "value" then
    modify fun s => { s with
      parts := s.parts.modify number fun p => { p with tag := plainTag (coreTag "str") } }

/-- The mappings that a merge names. -/
def mergeSources (value : Nat) : Loading (List Nat) := do
  let p ← part value
  match p.content with
  | .mapping _ => return [value]
  | .sequence items =>
    for item in items do
      let q ← part item
      match q.content with
      | .mapping _ => pure ()
      | content => throw (.at q.start.line (.mergeOfItem content.kindName))
    return items
  | content => throw (.at p.start.line (.mergeOfValue content.kindName))

/-- How a collection comes to its parts: the number of a part, whether what it holds is filled
at once, and the part, if it is not being built already. -/
abbrev Build := (number : Nat) → (deep : Bool) → Loading (Option Nat)

/-- Builds a part, with remarks of its place. -/
def place (build : Build) (number : Nat) (deep : Bool) (remarks : Option Remarks) :
    Loading Place := do
  match ← build number deep with
  | none => return .gap (← part number).start remarks
  | some number => return .part number remarks

/-- Builds what a merge lends, and whether all of it is there. -/
def buildMerge (build : Build) (value : Nat) : Loading Bool := do
  let p ← part value
  match p.content with
  | .mapping _ => return (← build value true).isSome
  | .sequence items =>
    let mut isThere := true
    for item in items do
      let q ← part item
      match q.content with
      | .mapping _ => isThere := (← build item true).isSome && isThere
      | content => throw (.at q.start.line (.mergeOfItem content.kindName))
    return isThere
  | content => throw (.at p.start.line (.mergeOfValue content.kindName))

/-- Builds what the merges of a mapping lend, and whether all of it is there. There is at most
one merge. -/
def buildMerges (build : Build) : (seen : Bool) → List (Nat × Nat) → Loading Bool
  | _, [] => return true
  | seen, (key, value) :: rest => do
    let p ← part key
    if !isMergePart p then
      settleKey key
      buildMerges build seen rest
    else
      if seen then
        let text := match p.content with
          | .scalar text _ => text
          | _ => "<<"
        throw (.at p.start.line (.duplicateMerge text))
      let isThere ← buildMerge build value
      let others ← buildMerges build (!(← part value).content.isEmptySequence) rest
      return isThere && others

/-- The entries of a mapping whose writing is not kept: those that its merges lend, later ones
first, and its own. -/
def flatEntries : (fuel number : Nat) → Loading (List (Nat × Nat) × List (Nat × Nat))
  | 0, _ => return ([], [])
  | fuel + 1, number => do
    let entries ← entriesOfPart (← part number)
    let mut lent : List (Nat × Nat) := []
    let mut own : List (Nat × Nat) := []
    for (key, value) in entries do
      let p ← part key
      if isMergePart p then
        if !lent.isEmpty then throw (.at p.start.line (.duplicateMerge "<<"))
        for source in (← mergeSources value).reverse do
          let (more, rest) ← flatEntries fuel source
          lent := lent ++ more ++ rest
      else
        settleKey key
        own := own ++ [(key, value)]
    return (lent, own)

/-! ## Collections -/

/-- The items of a sequence. Where the writing is kept, the sequence takes over the remarks on
its items. -/
def buildItems (build : Build) (taking : Bool) : List Nat → Loading (List Place)
  | [] => return []
  | number :: rest => do
    let remarks ← if taking then some <$> takeRemarks number else pure none
    let item ← place build number false remarks
    return item :: (← buildItems build taking rest)

/-- A node as a key. A collection keeps neither its tag nor the remarks inside it, and entries
that were lent to it are its own. -/
def asKey (n : Node) : Node :=
  let bare (m : Node) : Node := m.withForm { m.form with remarks := {} }
  match n with
  | .scalar _ _ => n
  | .sequence items f => .sequence (items.map bare) { f with tag := none, role := .plain }
  | .mapping _ f =>
    .mapping ((entriesOf n).map fun (k, v) => (bare k, bare v)) { f with tag := none, role := .plain }

/-- A key, and whether it can be one. A mapping can where the writing is kept. -/
def buildKey (build : Build) (number : Nat) (mappings : Bool) : Loading Node := do
  let remarks ← remarksOf number
  let key ← nodeOf (← place build number true (some remarks))
  let isAllowed := match key with
    | .mapping _ f => mappings && f.role != .set
    | _ => true
  if !isAllowed then throw (.at (← part number).start.line .unhashableKey)
  if (← get).keeping && key.form.role == .pairs then throw (.failed .noPlace)
  return asKey key

/-- Makes sure that no collection stands inside a key. -/
def checkKey (key : Node) : Loading Unit := do
  match innerCollection? key with
  | some inner => throw (.failed (.unhashable (collectionName (← get).keeping inner)))
  | none => return

/-- That a key comes again, with another value than at first. -/
def duplicate (key value first : Node) : Problem :=
  .duplicateKey key.displayKey (withoutMerges value).display (withoutMerges first).display

/-- The entry with a key among those of a mapping. -/
def entryWith? (done : List (Node × Place)) (key : Node) : Option (Node × Place) :=
  done.find? fun d => !isMerge d.1 && sameKey key d.1

/-- Builds the value of an entry. Its remarks are those that are on it once it is built. -/
def placeOfValue (build : Build) (number : Nat) (deep : Bool) : Loading Place := do
  let isMade := (← build number deep).isSome
  let remarks ← remarksOf number
  let own := if remarks == {} then none else some remarks
  let start := (← part number).start
  return if isMade then .part number own else .gap start own

/-- The entries of the mapping with a number whose writing is kept, after those that are done. -/
def buildEntries (build : Build) (number : Nat) (deep : Bool) :
    List (Nat × Nat) → (done : List (Node × Place)) → Loading (List (Node × Place))
  | [], done => return done
  | (k, v) :: rest, done => do
    let p ← part k
    showEntries number done
    if isMergePart p then
      let key := Node.scalar .merge (formOf k p .plain)
      match (← part v).content with
      | .sequence [] => buildEntries build number deep rest done
      | .sequence items => buildEntries build number deep rest (done ++ [(key, .list items)])
      | _ => buildEntries build number deep rest (done ++ [(key, .part v none)])
    else
      let key ← buildKey build k true
      let value ← placeOfValue build v deep
      checkKey key
      match entryWith? done key with
      | some d =>
        let shown ← nodeOf value
        let first ← nodeOf d.2
        throw (.at p.start.line (duplicate key shown first))
      | none => buildEntries build number deep rest (done ++ [(key, value)])

/-- The entries of a mapping whose writing is not kept. A key may come again where it is lent. -/
def buildFlat (build : Build) (unique : Bool) :
    List (Nat × Nat) → (done : List (Node × Place)) → Loading (List (Node × Place))
  | [], done => return done
  | (k, v) :: rest, done => do
    let key ← buildKey build k false
    let value ← place build v false none
    checkKey key
    match entryWith? done key with
    | some d =>
      if unique then
        let shown ← nodeOf value
        let first ← nodeOf d.2
        let line := (← part k).start.line
        throw (.at line (duplicate key shown first))
      buildFlat build unique rest (done.map fun e => if sameKey key e.1 then (e.1, value) else e)
    | none => buildFlat build unique rest (done ++ [(key, value)])

/-- The entries of a mapping. -/
def buildMapping (build : Build) (number : Nat) (deep : Bool) : Loading (List (Node × Place)) := do
  let s ← get
  if s.keeping then
    let entries ← entriesOfPart (← part number)
    let isLent ← buildMerges build false entries
    let done ← buildEntries build number deep entries []
    if !isLent then throw (.failed .noSource)
    return done
  else
    let (lent, own) ← flatEntries (s.parts.size + 1) number
    buildFlat build lent.isEmpty (lent ++ own) []

/-- The keys of a set, whose values do not count. -/
def buildSet (build : Build) : List (Nat × Nat) → (done : List (Node × Place)) →
    Loading (List (Node × Place))
  | [], done => return done
  | (k, v) :: rest, done => do
    let key ← buildKey build k false
    let value ← placeOfValue build v false
    checkKey key
    if (entryWith? done key).isSome then
      throw (.at (← part k).start.line (.duplicateItem key.displayKey))
    buildSet build rest (done ++ [(key, value)])

/-- The entries of a mapping that is written as a sequence. -/
def buildOrdered (build : Build) : List Nat → (done : List (Node × Place)) →
    Loading (List (Node × Place))
  | [], done => return done
  | item :: rest, done => do
    let (k, v) ← singleEntry item
    let remarks ← remarksOf k
    let key ← nodeOf (← place build k false (some remarks))
    if key.isCollection then
      throw (.failed (.unhashable (collectionName (← get).keeping key)))
    if (entryWith? done key).isSome then throw (.failed .repeatedItem)
    let value ← placeOfValue build v false
    buildOrdered build rest (done ++ [(key, value)])

/-- The entries of a sequence of pairs. -/
def buildPairs (build : Build) : List Nat → Loading (List (Place × Place))
  | [] => return []
  | item :: rest => do
    let (k, v) ← singleEntry item
    let key ← place build k false none
    let value ← place build v false none
    return (key, value) :: (← buildPairs build rest)

/-- A collection with a tag of its own. Every fault inside is reported as one of the tag. -/
def buildForeign (build : Build) (number : Nat) : Loading Made := do
  let p ← part number
  let form := { ← collectionForm number .plain with tag := some p.tag, remarks := {} }
  let body : Loading Made := match p.content with
    | .sequence items => return .sequence (← buildItems build false items) form
    | _ => do
      let remarks ← remarksOf number
      return .mapping (← buildMapping build number false) { form with remarks }
  tryCatch body fun _ => throw (.at p.start.line (.unknownTag p.tag.name))

/-- Fills a collection. -/
def fill (build : Build) (number : Nat) : Loading Made := do
  let s ← get
  let p ← part number
  let maker := makerOf s.keeping p.tag
  let form ← collectionForm number maker.role
  match maker with
  | .mapping => return .mapping (← buildMapping build number s.keeping) form
  | .sequence =>
    match p.content with
    | .sequence items => return .sequence (← buildItems build s.keeping items) form
    | _ => otherNode p "sequence"
  | .set =>
    if s.keeping then return .mapping (← buildSet build (← entriesOfPart p) []) form
    else return .mapping (← buildMapping build number false) form
  | .orderedMap => return .mapping (← buildOrdered build (← singleEntries p) []) form
  | .pairs => return .pairs (← buildPairs build (← singleEntries p)) form
  | .scalar | .foreign => buildForeign build number

/-- A collection with nothing in it yet. -/
def emptyMade (p : Part) (maker : Maker) (form : Form) : Made :=
  match maker, p.content with
  | .sequence, _ | .pairs, _ | .foreign, .sequence _ => .sequence [] form
  | _, _ => .mapping [] form

/-- Makes a part: a scalar at once, a collection now or later. -/
def make (build : Build) (number : Nat) : Loading Unit := do
  let s ← get
  let p ← part number
  let maker := makerOf s.keeping p.tag
  match maker, p.content with
  | .scalar, _ => record number (← scalar number p)
  | .foreign, .scalar text _ =>
    if !s.keeping then throw (.at p.start.line (.unknownTag p.tag.name))
    let anchor := p.anchor.filter (!isGenerated ·)
    record number (.scalar (.tagged text)
      { formOf number p .plain with tag := some p.tag, anchor })
  | _, content =>
    if maker == .foreign && !s.keeping then throw (.at p.start.line (.unknownTag p.tag.name))
    let isScalar := match content with
      | .scalar _ _ => true
      | _ => false
    if s.keeping && isScalar && (maker == .orderedMap || maker == .set) then
      throw (.failed .noCollection)
    if s.deep then record number (← fill build number)
    else
      record number (emptyMade p maker (formOf number p maker.role))
      modify fun s => { s with waiting := s.waiting ++ [number] }

/-- Builds a part, unless that is done; nothing when it is being built. -/
def construct : (fuel : Nat) → Build
  | 0, _, _ => return none
  | fuel + 1, number, deep => do
    let s ← get
    if s.made[number]?.join.isSome then return some number
    if s.making.contains number then return none
    let outer := s.deep
    set { s with making := number :: s.making, deep := outer || deep }
    make (construct fuel) number
    modify fun s => { s with making := s.making.erase number, deep := outer }
    return some number

/-- Fills the collections that wait, and those that come to wait by that. -/
def drain : (fuel : Nat) → Loading Unit
  | 0 => return
  | fuel + 1 => do
    let s ← get
    if s.waiting.isEmpty then return
    set { s with waiting := [] }
    for number in s.waiting do
      record number (← fill (construct (s.parts.size + 1)) number)
    drain fuel

/-- Builds a document. -/
def document (root : Nat) : Loading Node := do
  let size := (← get).parts.size
  let _ ← construct (size + 1) root false
  drain (size + 1)
  nodeOf (.part root none)

end Loading

/-- The document that a text holds, if it holds one. `keeping` tells whether its writing is
kept. -/
def read (cs : List Char) (keeping : Bool) : Except Fault (Option Node) := do
  match ← compose cs keeping with
  | none => return none
  | some c =>
    let start : Loader :=
      { parts := c.parts, version := c.version, keeping
        made := Array.replicate c.parts.size none }
    let (root, _) ← (Loading.document c.root).run start
    return some root

end MemberOrder.Yaml
