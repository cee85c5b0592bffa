/-
  Keys of mappings: when two of them are the same, and which nodes can be none.
-/
import MemberOrder.Data.Node

namespace MemberOrder.Yaml

/-- The number that a scalar is, truth values included: an integer or a fraction. -/
def number? : Scalar → Option (Int ⊕ Binary64)
  | .bool b => some (.inl (if b then 1 else 0))
  | .int n => some (.inl n)
  | .float x => some (.inr x)
  | _ => none

/-- Whether two scalars are the same key. Numbers are the same when their values are, moments
when their instants are. -/
def sameScalar (a b : Scalar) : Bool :=
  match number? a, number? b with
  | some (.inl m), some (.inl n) => m == n
  | some (.inl n), some (.inr x) | some (.inr x), some (.inl n) => x.isInt n
  | some (.inr x), some (.inr y) =>
    x.order y == .eq && x.magnitude ≤ Binary64.infinite
  | _, _ =>
    match a, b with
    | .moment m, .moment n => m.same n
    | _, _ => a == b

mutual

/-- Whether two nodes are the same key. A text with a tag of its own is the same as itself
only. -/
def sameKey : Node → Node → Bool
  | .scalar (.tagged _) f, .scalar (.tagged _) g => f.id == g.id
  | .scalar a _, .scalar b _ => sameScalar a b
  | .sequence xs _, .sequence ys _ => sameKeys xs ys
  | .mapping xs _, .mapping ys _ => sameEntries xs ys
  | _, _ => false

/-- Whether two lists of nodes are the same keys. -/
def sameKeys : List Node → List Node → Bool
  | [], [] => true
  | x :: xs, y :: ys => sameKey x y && sameKeys xs ys
  | _, _ => false

/-- Whether two lists of entries are the same. -/
def sameEntries : List (Node × Node) → List (Node × Node) → Bool
  | [], [] => true
  | x :: xs, y :: ys => sameEntry x y && sameEntries xs ys
  | _, _ => false

/-- Whether two entries are the same. -/
def sameEntry : Node × Node → Node × Node → Bool
  | (k, v), (l, w) => sameKey k l && sameKey v w

end

/-- What a collection is called, with or without its writing kept. -/
def collectionName (keeping : Bool) : Node → String
  | .scalar _ _ => "str"
  | .sequence _ f => if keeping && f.role != .pairs then "CommentedSeq" else "list"
  | .mapping _ f =>
    match f.role with
    | .set => if keeping then "CommentedSet" else "set"
    | .orderedMap => if keeping then "CommentedOrderedMap" else "ordereddict"
    | _ => if keeping then "CommentedMap" else "dict"

/-- The collection inside a key that keeps it from being one. -/
def innerCollection? (key : Node) : Option Node :=
  match key with
  | .scalar _ _ => none
  | .sequence items _ => items.find? (·.isCollection)
  | .mapping entries _ => (entries.map (·.2)).find? (·.isCollection)

end MemberOrder.Yaml

/-! Entries that one mapping lends to another by a merge key. -/

namespace MemberOrder.Yaml

/-- Whether a node is the key of a merge. -/
def isMerge : Node → Bool
  | .scalar .merge _ => true
  | _ => false

/-- Whether a node is a mapping. -/
def isMapping : Node → Bool
  | .mapping _ _ => true
  | _ => false

/-- Adds the entries whose keys are not there yet. -/
def addMissing (entries : List (Node × Node)) (more : List (Node × Node)) : List (Node × Node) :=
  more.foldl (fun done e => if done.any (sameKey e.1 ·.1) then done else done ++ [e]) entries

mutual

/-- The entries of a mapping: its own, and then those that it merges in. A sequence of
mappings has the entries of all of them. -/
def entriesOf : Node → List (Node × Node)
  | .scalar _ _ => []
  | .sequence items _ => entriesOfAll items
  | .mapping entries _ =>
    addMissing (entries.filter fun e => !isMerge e.1) (mergedInto entries)

/-- The entries of several nodes. -/
def entriesOfAll : List Node → List (Node × Node)
  | [] => []
  | n :: rest => entriesOf n ++ entriesOfAll rest

/-- The entries that the merges of a mapping lend. -/
def mergedInto : List (Node × Node) → List (Node × Node)
  | [] => []
  | e :: rest => mergedBy e ++ mergedInto rest

/-- The entries that an entry lends, if it is a merge. -/
def mergedBy : Node × Node → List (Node × Node)
  | (key, value) => if isMerge key then entriesOf value else []

end

mutual

/-- A node in which lent entries are told apart no more. -/
def withoutMerges : Node → Node
  | .scalar value f => .scalar value f
  | .sequence items f => .sequence (itemsWithoutMerges items) f
  | .mapping entries f => .mapping (entriesOf (.mapping (entriesWithoutMerges entries) f)) f

/-- Nodes in which lent entries are told apart no more. -/
def itemsWithoutMerges : List Node → List Node
  | [] => []
  | n :: rest => withoutMerges n :: itemsWithoutMerges rest

/-- Entries in whose values lent entries are told apart no more. -/
def entriesWithoutMerges : List (Node × Node) → List (Node × Node)
  | [] => []
  | e :: rest => entryWithoutMerges e :: entriesWithoutMerges rest

/-- An entry in whose value lent entries are told apart no more. -/
def entryWithoutMerges : Node × Node → Node × Node
  | (key, value) => (key, withoutMerges value)

end

/-- Whether a collection has no entries and no items. -/
def isEmptyCollection : Node → Bool
  | .sequence items _ => items.isEmpty
  | n => (entriesOf n).isEmpty

end MemberOrder.Yaml
