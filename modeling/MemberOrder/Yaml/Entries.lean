/-
  The entries of block mappings and sequences as members. Where an entry starts is known from
  the node tree; where it ends, and which comments go with it, from the lines.
-/
import MemberOrder.Model.Entity
import MemberOrder.Pattern.Basic
import MemberOrder.Yaml.Key
import MemberOrder.Yaml.LineTable

namespace MemberOrder.Yaml

/-- The numbers from `first` to `last`. -/
def numbersFrom (first last : Nat) : List Nat :=
  (List.range (last + 1 - first)).map (first + ·)

namespace LineTable

/-- Drops trailing blank lines, and comment lines no deeper than a column, from an entry whose
first line is `number`. -/
def trimEntry (t : LineTable) (number column : Nat) : (stop : Nat) → Nat
  | 0 => 0
  | stop + 1 =>
    let last := stop + 1
    if number < last && (t.isBlank last || (t.isComment last && t.indent last ≤ column)) then
      t.trimEntry number column stop
    else last

/-- The comment lines directly above a line, down to but not including line `floor`. -/
def commentsAbove (t : LineTable) (floor : Nat) : (number : Nat) → List Comment
  | 0 => []
  | above + 1 =>
    match t.comment? above with
    | some c => if floor < above then t.commentsAbove floor above ++ [c] else []
    | none => []

/-- The last line of the final entry: the one before the first shallower line. -/
def regionEnd (t : LineTable) (number last column : Nat) : Nat :=
  match (numbersFrom (number + 1) last).find? fun n => !t.isIdle n && t.indent n < column with
  | some n => n - 1
  | none => last

/-- The entry that starts at a column of the line `number` and reaches to the line `stop` at
most. Its siblings start at `column`, and the lines up to `floor` belong to others. -/
def entry (t : LineTable) (number keyColumn stop column floor : Nat) : MemberInfo :=
  let stop := t.trimEntry number column stop
  let leading := t.commentsAbove floor number
  let start := t.offset number keyColumn
  let finish := t.lineEnd stop
  let trailing := match hashComment? (t.line number) with
    | some column =>
      if keyColumn < column && stop == number then [t.commentAt number column] else []
    | none => []
  { name := "", comments := leading, trailingComments := trailing, line := number
    fullText := t.source.cut start finish
    span := some (t.span start finish)
    unit := some (t.span ((leading.head?.map (·.offset)).getD start) finish) }

/-- The lines of sibling entries: the data lines at a column, up to the first shallower one. -/
def siblingLines (t : LineTable) (column : Nat) : List Nat → List Nat
  | [] => []
  | n :: rest =>
    if t.isIdle n then t.siblingLines column rest
    else if t.indent n < column then []
    else if t.indent n == column then n :: t.siblingLines column rest
    else t.siblingLines column rest

/-- The lines of the items of a sequence: siblings up to the first that is no item. -/
def itemLines (t : LineTable) (column first last : Nat) : List Nat :=
  (t.siblingLines column (numbersFrom first last)).takeWhile t.isItem

/-- The lines of the entries of a mapping. A sequence may stand at the column of its key, so
items are no entries. -/
def keyLines (t : LineTable) (column first last : Nat) : List Nat :=
  first :: (t.siblingLines column (numbersFrom (first + 1) last)).filter (!t.isItem ·)

end LineTable

/-- The lines of sibling entries with the line each reaches to at most. -/
def withStops (lastStop : Nat → Nat) : List Nat → List (Nat × Nat)
  | [] => []
  | [n] => [(n, lastStop n)]
  | n :: next :: rest => (n, next - 1) :: withStops lastStop (next :: rest)

/-- The members that a node consists of, if it is a block collection found on lines after
`floor` and up to `last`. -/
abbrev NodeMembers := (floor last : Nat) → Option (List Member)

/-- Whether the entries or items of a node are told apart. -/
def isDivided (n : Node) : Bool :=
  n.isCollection && n.form.role != .set && n.form.role != .pairs && !isEmptyCollection n

/-- Gives an entry its children, where its value is a block collection below it. -/
def attachNested (t : LineTable) (info : MemberInfo) (value : Node) (members : NodeMembers) :
    Member :=
  if !isDivided value || value.form.flow then .leaf info
  else
    match info.span, members info.line ((info.span.map (·.endLine)).getD 0) with
    | some span, some (first :: rest) =>
      if ((first.info.span.map (·.start)).getD 0) ≤ span.start then .leaf info
      else
        let last := (first :: rest).getLast?.getD first
        .group { info with
          hasNestedObject := true
          container := if isMapping value then .braces else .brackets
          body := some (t.span first.unitStart last.unitStop) } (first :: rest)
    | _, _ => .leaf info

/-- Lays out entries from top to bottom. An entry's comments are below the entry before it. -/
def layOut (place : (floor number stop : Nat) → Member) :
    (floor : Nat) → List (Nat × Nat) → List Member
  | _, [] => []
  | floor, (number, stop) :: rest =>
    let m := place floor number stop
    m :: layOut place ((m.info.span.map (·.endLine)).getD 0) rest

/-- A mapping key whose line is known: the key, its value, and the value's members. -/
structure PlacedKey where
  key : Node
  value : Node
  members : NodeMembers

/-- The line of a key in a document that starts after some lines. -/
def PlacedKey.line (skipped : Nat) (k : PlacedKey) : Nat := skipped + k.key.form.line + 1

/-- A merge entry as it is written on a line. -/
def mergeEntry : Pattern := Pattern.all [Pattern.word "<<", Pattern.spaces, Pattern.char ':']

/-- The name and the value of an entry that only its line tells. -/
def lineEntry (info : MemberInfo) (line : List Char) : MemberInfo :=
  let key := line.takeWhile (· != ':')
  let value := line.drop (key.length + 1)
  { info with
    name := String.ofList (Text.trim key)
    value := .text (String.ofList (Text.trim value))
    isSpread := mergeEntry.leads (String.ofList line) }

/-- The members of a block mapping. -/
def mappingMembers (t : LineTable) (skipped : Nat) (keys : List PlacedKey) : NodeMembers :=
    fun floor last =>
  let byLine (number : Nat) := keys.reverse.find? (·.line skipped == number)
  match keys.map (·.line skipped) with
  | [] => none
  | line :: lines => do
    let firstLine := lines.foldl min line
    let first ← byLine firstLine
    let column := first.key.form.column
    let place (floor number stop : Nat) : Member :=
      match byLine number with
      | some k =>
        let info := t.entry number k.key.form.column stop column floor
        attachNested t { info with name := k.key.displayKey, value := .node k.value } k.value k.members
      | none =>
        .leaf (lineEntry (t.entry number column stop column floor) ((t.line number).drop column))
    return layOut place floor
      (withStops (t.regionEnd · last column) (t.keyLines column firstLine last))

/-- A sequence item: its node and the node's members. -/
structure PlacedItem where
  item : Node
  members : NodeMembers

/-- The nearest line at or above `number`, and below `floor`, that starts an item. -/
def dashLine? (t : LineTable) (floor : Nat) : (number : Nat) → Option Nat
  | 0 => none
  | n + 1 =>
    if n + 1 ≤ floor then none
    else if t.isItem (n + 1) then some (n + 1)
    else dashLine? t floor n

/-- The members of a block sequence. -/
def sequenceMembers (t : LineTable) (skipped : Nat) (items : List PlacedItem) : NodeMembers :=
    fun floor last => do
  let first ← items.head?
  let dash ← dashLine? t floor (skipped + first.item.form.line + 1)
  let column := t.indent dash
  let lines := t.itemLines column dash last
  if lines.length != items.length then none
  else
    let place (floor number stop : Nat) : Member :=
      let i := lines.idxOf number
      let info := t.entry number column stop column floor
      match items[i]? with
      | some p =>
        attachNested t { info with name := toString i, value := .node p.item } p.item p.members
      | none => .leaf info
    return layOut place floor (withStops (t.regionEnd · last column) lines)

mutual

/-- The members of a block collection in a document that starts after some lines. The places
of the items of a sequence with a tag of its own are not known, nor are those of the entries of
an ordered mapping. -/
def membersOf (t : LineTable) (skipped : Nat) : Node → NodeMembers
  | .scalar _ _ => fun _ _ => none
  | .sequence items f =>
    if f.tag.isSome then fun _ _ => none
    else sequenceMembers t skipped (placeItems t skipped items)
  | .mapping entries f =>
    if f.role == .orderedMap then fun _ _ => none
    else mappingMembers t skipped (placeKeys t skipped entries)

/-- The items of a sequence with their members. -/
def placeItems (t : LineTable) (skipped : Nat) : List Node → List PlacedItem
  | [] => []
  | n :: rest => ⟨n, membersOf t skipped n⟩ :: placeItems t skipped rest

/-- The keys of a mapping, merges excluded, with the members of their values. -/
def placeKeys (t : LineTable) (skipped : Nat) : List (Node × Node) → List PlacedKey
  | [] => []
  | e :: rest => placeKey t skipped e ++ placeKeys t skipped rest

/-- The key of an entry, unless it is a merge. -/
def placeKey (t : LineTable) (skipped : Nat) : Node × Node → List PlacedKey
  | (key, value) => if isMerge key then [] else [⟨key, value, membersOf t skipped value⟩]

end

end MemberOrder.Yaml
