/-
  The arrangement of data: keys of objects and mappings, elements of arrays and sequences.
  In documents with anchors an alias never moves ahead of its anchor.
-/
import MemberOrder.Model.Entity
import MemberOrder.Order.Chain

namespace MemberOrder.Order

/-- The schema groups of well known keys, in their order. -/
def schemaBuckets : List (List String) := [
  ["id", "type", "version", "$schema", "$id", "$ref"],
  ["name", "title", "required", "properties"],
  ["description", "default", "example", "examples"]]

/-- Whether a member holds a collection. -/
def isComplex (m : MemberInfo) : Bool :=
  if m.hasNestedObject || m.value.isCollection then true
  else
    match (m.value.text?).map fun s => Text.trim s.toList with
    | some ('{' :: _) | some ('[' :: _) => true
    | _ => false

/-- The place of a member's schema group: well known keys, collections, everything else. -/
def schemaRank (m : MemberInfo) : Nat :=
  let bucket := schemaBuckets.findIdx (·.contains m.name)
  if bucket < schemaBuckets.length then bucket
  else if isComplex m then schemaBuckets.length
  else schemaBuckets.length + 1

/-- What the arrangement of data depends on: the keys that come first, whether schema groups
are made, and the text by which an element is compared. -/
structure EntryRules where
  customKeys : List String
  schemaGroups : Bool
  elementKey : MemberInfo → String

/-- The rules of JSON documents: an element is compared by its text. -/
def EntryRules.json (o : Options) : EntryRules where
  customKeys := o.customKeyOrder
  schemaGroups := o.groupBySchema
  elementKey m := if m.fullText.isEmpty then m.value.display else Text.strip m.fullText

/-- The rules of YAML documents: an element is compared by its text after the dash. -/
def EntryRules.yaml (o : Options) : EntryRules where
  customKeys := o.yamlCustomKeyOrder
  schemaGroups := o.yamlGroupBySchema
  elementKey m :=
    match Text.trim m.fullText.toList with
    | '-' :: rest => String.ofList (Text.trim rest)
    | text => String.ofList text

variable {α : Type}

/-- Arranges the members without a custom place. -/
def arrangeRemaining (o : Options) (rules : EntryRules) (view : α → Member) (items : List α) :
    Except Fault (List α) :=
  if !rules.schemaGroups then sortGroup o view items
  else
    let groups := (List.range (schemaBuckets.length + 2)).map fun rank =>
      items.filter fun x => schemaRank (view x).info == rank
    eachGroup (sortGroup o view) groups

/-- Arranges the elements of an array, or the members of an object. -/
def arrangeEntries (o : Options) (rules : EntryRules) (isArray : Bool) (view : α → Member)
    (items : List α) : Except Fault (List α) :=
  if isArray then
    if o.preserveArrayOrder then .ok items
    else
      sortBy o (fun a b => compareNames o (rules.elementKey a) (rules.elementKey b)) view items
  else if !o.sortObjectKeys then .ok items
  else do
    let isListed (x : α) := rules.customKeys.contains (view x).name
    let listed := sortByRank (fun x => rules.customKeys.idxOf (view x).name)
      (items.filter isListed)
    return listed ++ (← arrangeRemaining o rules view (items.filter fun x => !isListed x))

/-! ## Anchors before aliases -/

/-- A name after a mark that starts a word. -/
def markedName (mark : Char) : Pattern :=
  .all [.either .atStart (.one fun c => Text.isSpace c || ['[', '{', ',', ':', '-'].contains c),
    .char mark, .mark "name" (.some1 Pattern.isNameOrHyphen)]

/-- The names that a text marks. -/
def namesMarked (mark : Char) (s : String) : List String :=
  let t := Text.ofString s
  ((markedName mark).findAll t).map fun m => t.cut (m.startOf "name") (m.stopOf "name")

/-- The anchors that a text defines. -/
def anchorsIn (s : String) : List String := namesMarked '&' s

/-- The aliases that a text uses. -/
def aliasesIn (s : String) : List String := namesMarked '*' s

/-- An item with the anchors it defines and the aliases it uses. -/
structure Linked (α : Type) where
  item : α
  anchors : List String
  aliases : List String

/-- The place, counted from the head of `later`, of the first item that defines one of the
aliases; the aliases are tried in order. -/
def ownerOf? (later : List (Linked α)) : (aliases : List String) → Option Nat
  | [] => none
  | name :: rest =>
    match later.findIdx? (·.anchors.contains name) with
    | some j => some j
    | none => ownerOf? later rest

/-- Moves the first anchor that comes too late up to the item that needs it. -/
def liftOne? : List (Linked α) → Option (List (Linked α))
  | [] => none
  | x :: later =>
    match ownerOf? later x.aliases with
    | some j =>
      match later[j]? with
      | some owner => some (owner :: x :: later.eraseIdx j)
      | none => none
    | none => (liftOne? later).map (x :: ·)

/-- Lifts anchors until none comes too late, at most `fuel` times. -/
def liftAnchors : (fuel : Nat) → List (Linked α) → List (Linked α)
  | 0, items => items
  | fuel + 1, items =>
    match liftOne? items with
    | some moved => liftAnchors fuel moved
    | none => items

/-- Reorders items so that each anchor comes before its aliases. -/
def anchorsFirst (view : α → Member) (items : List α) : List α :=
  let linked := items.map fun x =>
    let text := (view x).info.fullText
    { item := x, anchors := anchorsIn text, aliases := aliasesIn text : Linked α }
  (liftAnchors (items.length * items.length) linked).map (·.item)

/-- Arranges the entries of a YAML collection. -/
def arrangeYaml (o : Options) (isArray : Bool) (view : α → Member) (items : List α) :
    Except Fault (List α) := do
  let arranged ← arrangeEntries o (.yaml o) isArray view items
  return if o.preserveAnchorsAndAliases then anchorsFirst view arranged else arranged

end MemberOrder.Order
