/-
  The comparison chain of members: names with a place in the custom order, then required
  before optional members, then the groups of members, then the names. Only the last step
  follows the sort direction.
-/
import MemberOrder.Model.Member
import MemberOrder.Order.Names
import MemberOrder.Order.StableSort

namespace MemberOrder.Order

/-- The groups of members, in their order. -/
inductive TypeGroup where
  | method
  | setter
  | getter
  | property
  deriving Repr, DecidableEq, Inhabited

namespace TypeGroup

/-- The place of a group. -/
def rank : TypeGroup → Nat
  | .method => 0
  | .setter => 1
  | .getter => 2
  | .property => 3

/-- The name of a group. -/
def name : TypeGroup → String
  | .method => "method"
  | .setter => "setter"
  | .getter => "getter"
  | .property => "property"

/-- The group of a member: by its kind, and for values that look like functions the
methods. -/
def ofMember (m : MemberInfo) : TypeGroup :=
  match m.kind with
  | .method => .method
  | .setter => .setter
  | .getter => .getter
  | .property | .signature =>
    let value := (m.value.text?).getD ""
    if Text.occursIn "=>" value || Text.occursIn "function" value || Text.occursIn "()" value
        || m.name.toList.contains '(' then .method
    else .property

end TypeGroup

/-- Compares by a place that not everyone has: those with a place come first. -/
def compareRanks (a b : Option Nat) : Ordering :=
  match a, b with
  | some x, some y => compare x y
  | some _, none => .lt
  | none, some _ => .gt
  | none, none => .eq

/-- Compares two members. -/
def compareMembers (o : Options) (a b : MemberInfo) : Except Fault Ordering :=
  match compareRanks (o.customOrder.idxOf? a.name) (o.customOrder.idxOf? b.name) with
  | .lt => .ok .lt
  | .gt => .ok .gt
  | .eq =>
    if o.prioritizeRequired && a.optional != b.optional then
      .ok (if a.optional then .gt else .lt)
    else
      let groups :=
        if o.groupByType then
          compare (TypeGroup.ofMember a).rank (TypeGroup.ofMember b).rank
        else .eq
      match groups with
      | .lt => .ok .lt
      | .gt => .ok .gt
      | .eq => compareNames o a.name b.name

/-! ## Sorting with the chain

The items that are sorted need not be members: anything with a member behind it will do. -/

variable {α : Type}

/-- Whether a comparison allows its first item to come first. -/
def allows (r : Except Fault Ordering) : Bool :=
  match r with
  | .ok .gt => false
  | _ => true

/-- Sorts by a comparison of members. Only natural order can contradict itself; without it, the
comparison is taken not to fail. -/
def sortBy (o : Options) (cmp : MemberInfo → MemberInfo → Except Fault Ordering)
    (view : α → Member) (items : List α) : Except Fault (List α) :=
  let compareItems (a b : α) := cmp (view a).info (view b).info
  if o.naturalSort then insertionSort compareItems items
  else .ok (stableSort (fun a b => allows (compareItems a b)) items)

/-- Sorts by the comparison chain. -/
def sortGroup (o : Options) (view : α → Member) (items : List α) : Except Fault (List α) :=
  sortBy o (compareMembers o) view items

/-- Arranges groups one by one and joins them. -/
def eachGroup (arrange : List α → Except Fault (List α)) : List (List α) → Except Fault (List α)
  | [] => .ok []
  | group :: rest => do
    let arranged ← arrange group
    return arranged ++ (← eachGroup arrange rest)

/-- Sorts by a number, smallest first. -/
def sortByRank (rank : α → Nat) (items : List α) : List α :=
  stableSort (fun a b => rank a ≤ rank b) items

end MemberOrder.Order
