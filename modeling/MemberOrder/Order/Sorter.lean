/-
  Sorters: one arrangement per language, spreads pinned to their places, and children sorted
  like their parents.
-/
import MemberOrder.Order.Declarations
import MemberOrder.Order.Entries
import MemberOrder.Order.Fields
import MemberOrder.Order.MethodChain

namespace MemberOrder

/-- Whose rules a member list is arranged by. -/
inductive Sorter where
  | generic
  | script
  | style
  | struct
  | json
  | yaml
  deriving Repr, DecidableEq, Inhabited

/-- Why members cannot be put in order. -/
inductive SortError where
  /-- A record without a name, by its line. -/
  | nameless (line : Nat)
  /-- Two names that cannot be compared, in an entity if one is known. -/
  | incomparable (entity : Option String) (fault : Order.Fault)
  /-- Keyframes of which every step is a spread. -/
  | noSteps
  deriving Repr, DecidableEq

/-- How a sort error is reported. -/
def SortError.message : SortError → String
  | .nameless line => "Property at line " ++ toString line ++ " has no usable name"
  | .incomparable (some entity) fault =>
    "Unable to order properties in " ++ entity ++ ": " ++ fault.message
  | .incomparable none fault => "Unable to order properties: " ++ fault.message
  | .noSteps => "list index out of range"

namespace Sorter

/-- The sorter of a language. -/
def ofLanguage : Language → Sorter
  | .typescript => .script
  | .css => .style
  | .go => .struct
  | .json => .json
  | .yaml => .yaml

variable {α : Type}

/-- Arranges members that are no spreads. -/
def arrange (sorter : Sorter) (o : Options) (context : Option EntityKind) (view : α → Member)
    (items : List α) : Except Order.Fault (List α) :=
  let isArray := (context.map (·.isArray)).getD false
  match sorter with
  | .generic => Order.sortGroup o view items
  | .script => Order.arrangeScript o context view items
  | .style => Order.arrangeStyle o context view items
  | .struct => Order.arrangeFields o view items
  | .json => Order.arrangeEntries o (.json o) isArray view items
  | .yaml => Order.arrangeYaml o isArray view items

/-- Deals arranged items into the places that are no spreads. -/
def refill (view : α → Member) : (items arranged : List α) → List α
  | [], _ => []
  | x :: rest, arranged =>
    if (view x).info.isSpread then x :: refill view rest arranged
    else match arranged with
      | y :: others => y :: refill view rest others
      | [] => x :: refill view rest []

/-- Arranges items around the spreads, which keep their places. -/
def arrangeAround (sorter : Sorter) (o : Options) (context : Option EntityKind)
    (view : α → Member) (items : List α) : Except Order.Fault (List α) := do
  let arranged ← sorter.arrange o context view (items.filter fun x => !(view x).info.isSpread)
  return refill view items arranged

/-- Whether a sorter arranges the children of a member by what brackets stand around them,
under the rules of the whole document. -/
def isDocumentWide : Sorter → Bool
  | .json | .yaml => true
  | .generic | .script | .style | .struct => false

/-- The context in which the children of a member are arranged. -/
def childContext (sorter : Sorter) (parent : MemberInfo) : Option EntityKind :=
  if sorter.isDocumentWide then
    some (if parent.container == .brackets then .jsonArray else .jsonObject)
  else none

/-- A member beside what sorting its children gave. -/
abbrev Nested := Member × Except SortError Member

/-- Whether a list of keyframe steps has none that could be arranged. -/
def lacksSteps (sorter : Sorter) (context : Option EntityKind) (items : List Nested) : Bool :=
  sorter == .style && context == some .cssKeyframes && items.all (·.1.info.isSpread)

/-- Arranges one list whose members have been sorted inside. A record without a name is an
error where names are checked; of the errors inside, the first in the new order counts. -/
def arrangeLevel (sorter : Sorter) (o : Options) (context : Option EntityKind)
    (entity : Option String) (checksNames : Bool) (items : List Nested) :
    Except SortError (List Member) := do
  if checksNames then
    match items.find? fun x => !x.1.info.hasName with
    | some x => throw (.nameless x.1.info.line)
    | none => pure ()
  if sorter.lacksSteps context items then throw .noSteps
  let ordered ← (sorter.arrangeAround o context Prod.fst items).mapError (.incomparable entity)
  ordered.mapM Prod.snd

mutual

/-- Sorts the children of a member, at every depth. -/
def sortInside (sorter : Sorter) (o : Options) (entity : Option String) :
    Member → Except SortError Member
  | .leaf i => .ok (.leaf i)
  | .group i children =>
    if children.isEmpty then .ok (.group i children)
    else do
      let sorted ← sorter.arrangeLevel o (sorter.childContext i) entity
        (!sorter.isDocumentWide) (sortEachInside sorter o entity children)
      return .group i sorted

/-- Sorts the children of each member of a list. -/
def sortEachInside (sorter : Sorter) (o : Options) (entity : Option String) :
    List Member → List Nested
  | [] => []
  | m :: rest => (m, sortInside sorter o entity m) :: sortEachInside sorter o entity rest

end

/-- Sorts members, and their children where the options say so. The entity, if there is
one, is known by its kind and its name. -/
def sortMembers (sorter : Sorter) (o : Options) (entity : Option (EntityKind × String))
    (members : List Member) : Except SortError (List Member) :=
  if members.isEmpty then .ok []
  else
    let name := entity.map (·.2)
    let inner := if sorter.isDocumentWide then name else none
    let items :=
      if o.sortNestedObjects then sortEachInside sorter o inner members
      else members.map fun m => (m, .ok m)
    sorter.arrangeLevel o (entity.map (·.1)) name true items

/-- Sorts the members of an entity. -/
def sortEntity (sorter : Sorter) (o : Options) (e : Entity) : Except SortError Entity := do
  return { e with members := ← sorter.sortMembers o (some (e.kind, e.name)) e.members }

end Sorter

end MemberOrder
