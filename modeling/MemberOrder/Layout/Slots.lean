/-
  Positional layout. A body is cut into the units of its members and the gaps between them.
  The gaps stay where they are, and the units are dealt back in the new order. Of a unit,
  only the separator may change, and the body inside it where it is out of order.
-/
import MemberOrder.Layout.Rules
import MemberOrder.Model.Entity

/-!
The region of a source in which members are laid out: a piece of text with the offset at
which it starts, so that spans of the whole source can be cut from it.
-/

namespace MemberOrder.Layout

/-- A piece of a source and the offset of its first character. -/
structure Excerpt where
  text : Text
  base : Nat

namespace Excerpt

/-- The characters between two offsets of the source. -/
def slice (x : Excerpt) (start stop : Nat) : List Char :=
  x.text.slice (start - x.base) (stop - x.base)

/-- The characters from an offset of the source on. -/
def sliceFrom (x : Excerpt) (start : Nat) : List Char := x.text.slice (start - x.base) x.text.size

/-- The characters up to an offset of the source. -/
def sliceTo (x : Excerpt) (stop : Nat) : List Char := x.text.slice 0 (stop - x.base)

end Excerpt

/-- Members in the order in which they stand in the source. -/
def sourceOrder (ms : List Member) : List Member :=
  let rec place (m : Member) : List Member → List Member
    | [] => [m]
    | other :: rest =>
      if m.unitStart ≤ other.unitStart then m :: other :: rest else other :: place m rest
  ms.foldr place []

/-- Whether two neighbours are out of source order. -/
def hasInversion : List Member → Bool
  | a :: b :: rest => b.unitStart < a.unitStart || hasInversion (b :: rest)
  | _ => false

mutual

/-- Whether the children of a member, at some depth, are out of source order. -/
def reorderedInside : Member → Bool
  | .leaf _ => false
  | .group _ children => hasInversion children || anyReordered children

/-- Whether the children of some member are out of source order. -/
def anyReordered : List Member → Bool
  | [] => false
  | m :: rest => reorderedInside m || anyReordered rest

end

/-- Whether a list, or a list inside it, is out of source order. -/
def reordered (ms : List Member) : Bool := hasInversion ms || anyReordered ms

/-- The offsets that a body and the units in it cover. -/
def bounds (body : Span) (ms : List Member) : Nat × Nat :=
  ms.foldl (fun (start, stop) m => (min start m.unitStart, max stop m.unitStop))
    (body.start, body.stop)

end MemberOrder.Layout

/-! ## Positional layout -/

namespace MemberOrder.Layout

/-- What the layout of an entity depends on. -/
structure Setting where
  rules : Rules
  options : Options
  kind : EntityKind
  excerpt : Excerpt

/-- The separator of the member dealt into a place, given the member's own separator and the
separators in source order. -/
def slotSeparator (s : Setting) (own : String) (slot : Nat) (separators : List String) : String :=
  let isLast := slot + 1 == separators.length
  let chosen :=
    if s.rules.separatorsStay then separators.getD slot ""
    else if isLast then
      if separators.getLast?.getD "" == "" then "" else own
    else if own.isEmpty then commonSeparator separators (s.rules.separator s.kind)
    else own
  if isLast && s.rules.hasTrailingCommas then
    finalSeparator s.options chosen (s.rules.separator s.kind)
  else chosen

/-- Where a separator first stands outside the given ranges; `i` is the place of the first
of the characters. -/
def separatorIndex? (separator : List Char) (covered : List (Nat × Nat)) :
    (i : Nat) → List Char → Option Nat
  | _, [] => none
  | i, c :: rest =>
    if !covered.any (fun (low, high) => low ≤ i && i < high) && separator.isPrefixOf (c :: rest)
    then some i
    else separatorIndex? separator covered (i + 1) rest

/-- Where a member's own separator stands in the text after it, comments left aside. -/
def ownSeparatorIndex? (m : MemberInfo) (after : List Char) : Option Nat :=
  let origin := (m.span.map (·.stop)).getD 0
  let covered := m.trailingComments.filterMap fun c =>
    if origin ≤ c.stop then some (c.offset - origin, c.stop - origin) else none
  separatorIndex? m.separator.toList covered 0 after

/-- The unit of a member in a place: its comments, its text, and what follows it with the
separator replaced. -/
def unitText (s : Setting) (m : MemberInfo) (text : List Char) (separator : String) : List Char :=
  match m.unit, m.span with
  | some unit, some span =>
    let lead := s.excerpt.slice unit.start span.start
    let after := s.excerpt.slice span.stop unit.stop
    let place := if m.separator.isEmpty then none else ownSeparatorIndex? m after
    match place with
    | none => lead ++ text ++ separator.toList ++ after
    | some i =>
      lead ++ text ++ after.take i ++ separator.toList ++ after.drop (i + m.separator.length)
  | _, _ => text

/-- The gaps after the units of members in source order, from `cursor` up to `stop`. -/
def gapsFrom (x : Excerpt) (stop : Nat) : (cursor : Nat) → List Member → List (List Char)
  | cursor, [] => [x.slice cursor stop]
  | cursor, m :: rest => x.slice cursor m.unitStart :: gapsFrom x stop m.unitStop rest

/-- Puts units between gaps. -/
def interleave : (gaps units : List (List Char)) → List Char
  | [], _ => []
  | gap :: _, [] => gap
  | gap :: gaps, unit :: units => gap ++ unit ++ interleave gaps units

/-- The units of members, each with its text, from the place `slot` on. -/
def unitsFrom (s : Setting) (separators : List String) :
    (slot : Nat) → List (Member × List Char) → List (List Char)
  | _, [] => []
  | slot, (m, text) :: rest =>
    unitText s m.info text (slotSeparator s m.info.separator slot separators)
      :: unitsFrom s separators (slot + 1) rest

/-- A body with its members, each with its text, dealt into the places. -/
def dealt (s : Setting) (body : Span) (ms : List (Member × List Char)) : List Char :=
  let members := ms.map (·.1)
  let (start, stop) := bounds body members
  if ms.isEmpty then s.excerpt.slice start stop
  else
    let inSource := sourceOrder members
    let separators := inSource.map (·.info.separator)
    interleave (gapsFrom s.excerpt stop start inSource) (unitsFrom s separators 0 ms)

/-- The text of a member as written. -/
def verbatim (s : Setting) (m : MemberInfo) : List Char :=
  match m.span with
  | some span => s.excerpt.slice span.start span.stop
  | none => []

mutual

/-- The text of a member; a body inside it that is out of order is dealt anew. -/
def memberText (s : Setting) : Member → List Char
  | .leaf i => verbatim s i
  | .group i children =>
    match i.span, i.body with
    | some span, some body =>
      if reordered children then
        let (start, stop) := bounds body children
        s.excerpt.slice span.start start ++ dealt s body (memberTexts s children)
          ++ s.excerpt.slice stop span.stop
      else verbatim s i
    | _, _ => verbatim s i

/-- Members with their texts. -/
def memberTexts (s : Setting) : List Member → List (Member × List Char)
  | [] => []
  | m :: rest => (m, memberText s m) :: memberTexts s rest

end

/-- An entity with its members dealt into their new places. -/
def dealtEntity (s : Setting) (body : Span) (members : List Member) : List Char :=
  let (start, stop) := bounds body members
  s.excerpt.sliceTo start ++ dealt s body (memberTexts s members) ++ s.excerpt.sliceFrom stop

end MemberOrder.Layout
