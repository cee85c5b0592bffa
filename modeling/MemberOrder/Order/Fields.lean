/-
  The arrangement of struct fields: embedded fields first, then exported before unexported
  ones, each group ordered by name, type, size or tags.
-/
import MemberOrder.Order.Chain

namespace MemberOrder.Order

/-! ## Sizes of types -/

/-- The sizes of the basic types in bytes. -/
def typeSizes : List (String × Nat) := [
  ("bool", 1), ("byte", 1), ("int8", 1), ("uint8", 1),
  ("int16", 2), ("uint16", 2),
  ("rune", 4), ("int32", 4), ("uint32", 4), ("float32", 4),
  ("int64", 8), ("uint64", 8), ("int", 8), ("uint", 8), ("uintptr", 8), ("float64", 8),
  ("complex64", 8),
  ("complex128", 16), ("string", 16), ("interface\x7b\x7d", 16), ("any", 16), ("error", 16)]

/-- The length of an array type, as its digits, and the element type. -/
def arrayType? (cs : List Char) : Option (List Char × List Char) :=
  match cs with
  | '[' :: rest =>
    let digits := rest.takeWhile Text.isDecimal
    match rest.drop digits.length with
    | ']' :: element =>
      if digits.isEmpty || element.isEmpty || element.contains '\n' then none
      else some (digits, element)
    | _ => none
  | _ => none

/-- Types of another package. -/
def qualifiedName : Pattern :=
  .all [.some1 Text.isWord, .char '.', .some1 Text.isWord]

/-- The size of a type that is no array: pointers and slices have a fixed one, types of
other packages and unknown names come after all known types. -/
def plainTypeSize (cs : List Char) : Nat :=
  if ['*'].isPrefixOf cs then 8
  else if ['[', ']'].isPrefixOf cs then 24
  else if "map[".toList.isPrefixOf cs || "func".toList.isPrefixOf cs
      || Text.contains "chan".toList cs then 8
  else
    let base := Text.trim (cs.filter fun c => !(['[', ']', '*', '<', '>', '-'].contains c))
    if qualifiedName.fits (String.ofList base) then 999
    else (typeSizes.lookup (String.ofList base)).getD (1000 + base.length)

/-- The size of a type; `fuel` bounds the dimensions of an array. -/
def typeSizeOf : (fuel : Nat) → List Char → Except Fault Nat
  | 0, cs => .ok (plainTypeSize cs)
  | fuel + 1, cs =>
    let clean := Text.collapse cs
    match arrayType? clean with
    | some (digits, element) => do return (← runValue digits) * (← typeSizeOf fuel element)
    | none => .ok (plainTypeSize clean)

/-- The approximate size of a type. -/
def typeSize (type : String) : Except Fault Nat := typeSizeOf (type.length + 1) type.toList

/-! ## Tags -/

/-- The tag keys that count, in alphabetical order. -/
def tagKeys : List String := ["db", "gorm", "json", "validate", "xml"]

/-- A tag key in use. -/
def tagUse (key : String) : Pattern :=
  .seq (.notBehind Pattern.isNameOrHyphen) (.word (key ++ ":\""))

/-- The known keys that tags use, joined. -/
def tagPattern (tags : Option String) : Option String :=
  match tags with
  | none => none
  | some text =>
    let keys := tagKeys.filter fun key => (tagUse key).occurs text
    if keys.isEmpty then none else some (Text.joinStrings "+" keys)

/-! ## Arranging -/

/-- Whether a field is visible outside its package. -/
def isExported (m : MemberInfo) : Bool :=
  let name := m.name.toList.dropWhile (· == '*')
  let name := if m.isEmbedded then (Text.splitAt (· == '.') name).getLast?.getD [] else name
  match name with
  | c :: _ => Text.isUpper c
  | [] => false

/-- Compares fields by type, then by name. -/
def compareTypes (o : Options) (a b : MemberInfo) : Except Fault Ordering :=
  match compareChars (Text.lower a.value.display).toList (Text.lower b.value.display).toList with
  | .eq => compareNames o a.name b.name
  | r => .ok (directed o r)

/-- Compares fields by size, then by name. -/
def compareSizes (o : Options) (a b : MemberInfo) : Except Fault Ordering := do
  match compare (← typeSize a.value.display) (← typeSize b.value.display) with
  | .eq => compareNames o a.name b.name
  | r => return directed o r

variable {α : Type}

/-- Fields in the order in which they are looked at when each is compared with those before it: the
second one first. A field alone is not looked at. -/
def lookedAt : List α → List α
  | first :: second :: rest => second :: first :: rest
  | _ => []

/-- Orders fields by size. The first size that is looked at and cannot be told is the fault. -/
def sortBySize (o : Options) (view : α → Member) (items : List α) : Except Fault (List α) :=
  if o.naturalSort then sortBy o (compareSizes o) view items
  else do
    let _ ← (lookedAt items).mapM fun x => typeSize (view x).info.value.display
    sortBy o (compareSizes o) view items

/-- Orders a group of fields. -/
def orderFields (o : Options) (view : α → Member) (items : List α) : Except Fault (List α) :=
  match o.structStrategy with
  | .byType => sortBy o (compareTypes o) view items
  | .bySize => sortBySize o view items
  | .alphabetical | .preserveTags => sortGroup o view items

/-- Puts exported fields first. -/
def arrangeByVisibility (o : Options) (view : α → Member) (items : List α) :
    Except Fault (List α) :=
  if o.groupByVisibility then do
    let exported ← orderFields o view (items.filter fun x => isExported (view x).info)
    let unexported ← orderFields o view (items.filter fun x => !isExported (view x).info)
    return exported ++ unexported
  else orderFields o view items

/-- The tag patterns of fields, each once, in order. -/
def tagPatterns (view : α → Member) (items : List α) : List String :=
  let found := items.filterMap fun x => tagPattern (view x).info.structTags
  stableSort (fun a b => compareChars a.toList b.toList != .gt) found.eraseDups

/-- Groups fields by tag pattern where the options ask for it; untagged fields come last. -/
def arrangeByTags (o : Options) (view : α → Member) (items : List α) :
    Except Fault (List α) :=
  if o.structStrategy == .preserveTags then
    let tag (x : α) := tagPattern (view x).info.structTags
    let groups := (tagPatterns view items).map fun p => items.filter fun x => tag x == some p
    eachGroup (arrangeByVisibility o view) (groups ++ [items.filter fun x => (tag x).isNone])
  else arrangeByVisibility o view items

/-- Arranges the fields of a struct. -/
def arrangeFields (o : Options) (view : α → Member) (items : List α) : Except Fault (List α) :=
  if o.groupEmbeddedFields then do
    let embedded ← arrangeByTags o view (items.filter fun x => (view x).info.isEmbedded)
    let regular ← arrangeByTags o view (items.filter fun x => !(view x).info.isEmbedded)
    return embedded ++ regular
  else arrangeByTags o view items

end MemberOrder.Order
