/-
  The arrangement of style declarations and of keyframe steps.
-/
import MemberOrder.Model.Entity
import MemberOrder.Order.Chain

namespace MemberOrder.Order

/-- The categories of style properties, in their order, and the properties of each. -/
def propertyCategories : List (String × List String) := [
  ("positioning", ["position", "top", "right", "bottom", "left", "inset"]),
  ("display", ["display", "visibility", "opacity", "overflow", "overflow-x", "overflow-y"]),
  ("flexbox", ["flex", "flex-direction", "flex-wrap", "flex-flow", "justify-content",
    "align-items", "align-content", "align-self", "order", "flex-grow", "flex-shrink",
    "flex-basis"]),
  ("grid", ["grid", "grid-template", "grid-template-rows", "grid-template-columns",
    "grid-template-areas", "grid-gap", "grid-row-gap", "grid-column-gap"]),
  ("boxModel", ["width", "height", "min-width", "min-height", "max-width", "max-height",
    "margin", "margin-top", "margin-right", "margin-bottom", "margin-left",
    "padding", "padding-top", "padding-right", "padding-bottom", "padding-left"]),
  ("border", ["border", "border-top", "border-right", "border-bottom", "border-left",
    "border-width", "border-style", "border-color", "border-radius"]),
  ("background", ["background", "background-color", "background-image", "background-repeat",
    "background-position", "background-size", "background-attachment"]),
  ("typography", ["color", "font", "font-family", "font-size", "font-weight", "font-style",
    "line-height", "text-align", "text-decoration", "text-transform", "letter-spacing",
    "word-spacing"]),
  ("animation", ["animation", "animation-name", "animation-duration",
    "animation-timing-function", "animation-delay", "animation-iteration-count",
    "animation-direction", "animation-fill-mode", "animation-play-state"]),
  ("transition", ["transition", "transition-property", "transition-duration",
    "transition-timing-function", "transition-delay"]),
  ("transform", ["transform", "transform-origin", "transform-style", "perspective",
    "perspective-origin"])]

/-- The category of a property; properties of none are uncategorized. -/
def categoryOf (name : String) : String :=
  let name := Text.lower name
  match propertyCategories.find? (·.2.contains name) with
  | some (category, _) => category
  | none => "uncategorized"

/-- The place of a property's category; uncategorized properties come last. -/
def categoryRank (name : String) : Nat :=
  let name := Text.lower name
  propertyCategories.findIdx (·.2.contains name)

/-- The vendor marks that come first, in their order. -/
def vendorOrder : List String := ["-webkit-", "-moz-", "-ms-", "-o-"]

/-- Where a keyframe step stands: the percentage of the first selector in its list. -/
def keyframePosition (name : String) : Binary64 :=
  let first := Text.lower (String.ofList
    (Text.trim (name.toList.takeWhile (· != ','))))
  if first == "from" then ⟨false, 0⟩
  else if first == "to" then Binary64.ofDecimal false 100 0
  else
    let digits := Pattern.some1 Text.isDecimal
    let percentage : Pattern :=
      .all [digits, .optional (.seq (.char '.') digits), .char '%']
    if percentage.fits first then readNumber first.toList.dropLast else Binary64.infinity

variable {α : Type}

/-- Orders keyframe steps by position. Backwards, the whole list is turned around. -/
def arrangeSteps (o : Options) (view : α → Member) (items : List α) : List α :=
  if !o.sortKeyframes then items
  else
    let key (x : α) := (keyframePosition (view x).name).key
    let sorted := stableSort (fun a b => key a ≤ key b) items
    if o.isDescending then sorted.reverse else sorted

/-- The vendor marks of items, each once, in the order in which they first appear, the well
known ones ahead. -/
def vendorMarks (view : α → Member) (items : List α) : List String :=
  let add (marks : List String) (x : α) :=
    match (view x).info.vendorPrefix with
    | some mark => if mark.isEmpty || marks.contains mark then marks else marks ++ [mark]
    | none => marks
  items.foldl add vendorOrder

/-- Whether a declaration carries a vendor mark. -/
def hasVendor (m : Member) : Bool :=
  match m.info.vendorPrefix with
  | some mark => !mark.isEmpty
  | none => false

/-- Groups declarations by vendor mark, those without one last, and sorts each group. -/
def arrangeByVendor (o : Options) (view : α → Member) (items : List α) :
    Except Fault (List α) :=
  if !o.groupVendorPrefixes then sortGroup o view items
  else
    let marked := (vendorMarks view items).map fun mark =>
      items.filter fun x => (view x).info.vendorPrefix == some mark
    eachGroup (sortGroup o view) (marked ++ [items.filter fun x => !hasVendor (view x)])

/-- Puts important declarations first. -/
def arrangeByImportance (o : Options) (view : α → Member) (items : List α) :
    Except Fault (List α) :=
  if !o.sortByImportance then arrangeByVendor o view items
  else do
    let important ← arrangeByVendor o view (items.filter fun x => (view x).info.important)
    let normal ← arrangeByVendor o view (items.filter fun x => !(view x).info.important)
    return important ++ normal

/-- Whether a declaration sets a custom property. -/
def isVariable (m : Member) : Bool := Text.startsWith m.name "--"

/-- Arranges declarations: custom properties first, then by category or by importance. -/
def arrangeDeclarations (o : Options) (view : α → Member) (items : List α) :
    Except Fault (List α) := do
  let leading := if o.groupVariables then items.filter fun x => isVariable (view x) else []
  let rest := if o.groupVariables then items.filter fun x => !isVariable (view x) else items
  if o.groupByCategory then
    return leading ++ sortByRank (fun x => categoryRank (view x).name) rest
  else return leading ++ (← arrangeByImportance o view rest)

/-- Arranges the members of a style block: steps of a keyframes block by position, all
others as declarations. -/
def arrangeStyle (o : Options) (context : Option EntityKind) (view : α → Member)
    (items : List α) : Except Fault (List α) :=
  let areSteps := context == some .cssKeyframes
    && (items.head?.map fun x => (view x).children?.isSome).getD false
  if areSteps then .ok (arrangeSteps o view items) else arrangeDeclarations o view items

end MemberOrder.Order
