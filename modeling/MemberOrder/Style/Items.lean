/-
  The statements of a style block: declarations, other statements, and blocks with a body
  of their own.
-/
import MemberOrder.Model.Entity
import MemberOrder.Pattern.Basic
import MemberOrder.Source.Brackets
import MemberOrder.Source.Scanned

/-! The patterns of style sheets: declarations, importance, vendor marks and selectors. -/

namespace MemberOrder.Style

open Pattern

/-- A declaration up to its colon. -/
def declaration : Pattern :=
  let custom : Pattern := .seq (word "--") (some1 isNameOrHyphen)
  let plain := all [optional (char '-'), .one isNameStart, .span isNameOrHyphen]
  all [.mark "name" (.either custom plain), spaces, char ':']

/-- The mark of an important declaration at the end of its value. -/
def importance : Pattern :=
  all [char '!', spaces, wordAnyCase "important", spaces, atEnd]

/-- A well known vendor mark. -/
def knownVendor : Pattern :=
  all [char '-', choice [word "webkit", word "moz", word "ms", word "o"], char '-']

/-- Any vendor mark. -/
def otherVendor : Pattern := all [char '-', some1 Char.isLower, char '-']

/-- The prelude of a keyframes block. -/
def keyframes : Pattern :=
  all [char '@', optional (all [char '-', some1 isLatinFolded, char '-']),
    wordAnyCase "keyframes", spaces1, .mark "name" (some1 fun c => !Text.isSpace c)]

/-- The prelude of a keyframe step. -/
def keyframeStep : Pattern :=
  let digits := some1 Text.isDecimal
  let percentage := all [digits, optional (.seq (char '.') digits), char '%']
  .seq (choice [percentage, wordAnyCase "from", wordAnyCase "to"]) wordBoundary

/-- The vendor mark that a name starts with. -/
def vendorMark? (name : String) : Option String :=
  let t := Text.ofString name
  (knownVendor.matchAt? t 0 t.size <|> otherVendor.matchAt? t 0 t.size).map fun m =>
    t.cut m.start m.stop

/-- The kind of entity that a prelude introduces. -/
def kindOf (selector : String) : EntityKind :=
  let lowered := Text.lower (Text.strip selector)
  if Text.startsWith lowered "@media" then .cssMedia
  else if keyframes.leads lowered || keyframeStep.leads lowered then .cssKeyframes
  else if Text.startsWith lowered "@" then .cssAtRule
  else .cssRule

/-- A selector with the insides of attribute brackets left out. -/
def withoutAttributes (selector : String) : List Char :=
  (all [char '[', spanNot "]", char ']']).replaceAll (Text.ofString selector) fun _ => ['[']

/-- The weight of a selector: a hundred per identifier, ten per class, attribute or pseudo
class, one per element. -/
def specificity (selector : String) : Nat :=
  let bare := withoutAttributes selector
  let t := bare.toArray
  let pseudo : Pattern := .seq (some1 (· == ':')) (.one isNameOrHyphen)
  let element : Pattern := all [
    .either atStart (.one fun c => Text.isSpace c || ">+~,(".toList.contains c),
    .one isLatin, .span isNameOrHyphen]
  let classes := bare.count '.' + bare.count '[' + (pseudo.findAll t).length
  bare.count '#' * 100 + classes * 10 + (element.findAll t).length

end MemberOrder.Style

/-! ## Items -/

namespace MemberOrder.Style

/-- One statement of a block body. Its text ends before the separator or the bracket. -/
inductive Item where
  | declaration (start stop : Nat) (semicolon : Option Nat)
  | statement (start stop : Nat) (semicolon : Option Nat)
  | block (start stop openAt closeAt : Nat)
  deriving Repr, DecidableEq, Inhabited

namespace Item

/-- Where an item starts. -/
def start : Item → Nat
  | .declaration a _ _ | .statement a _ _ | .block a _ _ _ => a

/-- Just past an item and its separator. -/
def after : Item → Nat
  | .declaration _ b semicolon | .statement _ b semicolon =>
    match semicolon with
    | some place => place + 1
    | none => b
  | .block _ _ _ closeAt => closeAt + 1

/-- Whether an item is a declaration. -/
def isDeclaration : Item → Bool
  | .declaration _ _ _ => true
  | _ => false

/-- Whether an item is a block. -/
def isBlock : Item → Bool
  | .block _ _ _ _ => true
  | _ => false

end Item

/-- What can be wrong between the statements of a block, with its line. -/
inductive ItemProblem where
  | unexpectedBrace (line : Nat)
  | unclosedBlock (line : Nat)
  deriving Repr, DecidableEq

/-- A statement as a declaration, where it is one. -/
def statementItem (s : Scanned) (start stop : Nat) (semicolon : Option Nat) : Item :=
  if (declaration.matchAt? s.masked start s.masked.size).isSome then
    .declaration start stop semicolon
  else .statement start stop semicolon

/-- The items found and what is wrong between them. -/
abbrev Items := List Item × List ItemProblem

/-- Reads the character `c` at `i` of the statement that starts at `start`, within `depth`
open brackets, and goes on with `next`: at an offset, within some brackets, in a statement
or between two. -/
def readItem (s : Scanned) (stop : Nat) (next : (i depth : Nat) → Option Nat → Items)
    (i depth start : Nat) (c : Char) : Items :=
  if c == '(' || c == '[' then next (i + 1) (depth + 1) (some start)
  else if c == ')' || c == ']' then next (i + 1) (depth - 1) (some start)
  else if c == '{' then
    match (Brackets.close? Brackets.curly s.masked i).filter (· < stop) with
    | none => ([], [.unclosedBlock (s.lineAt i)])
    | some close =>
      if depth == 0 && !(0 < i && s.masked.hasAt (i - 1) '#') then
        let (items, problems) := next (close + 1) depth none
        (.block start (s.prevCode i start) i close :: items, problems)
      else next (close + 1) depth (some start)
  else if c == '}' then
    let (items, problems) := next (i + 1) depth none
    (items, .unexpectedBrace (s.lineAt i) :: problems)
  else if c == ';' && depth == 0 then
    let (items, problems) := next (i + 1) depth none
    (statementItem s start (s.prevCode i start) (some i) :: items, problems)
  else next (i + 1) depth (some start)

/-- The items from `i` up to `stop`. The current statement starts at `begun`, and `depth`
brackets are open in it. -/
def itemsFrom (s : Scanned) (stop : Nat) :
    (fuel i depth : Nat) → (begun : Option Nat) → Items
  | 0, _, _, _ => ([], [])
  | fuel + 1, i, depth, begun =>
    if i < stop then
      match s.masked[i]? with
      | none => ([], [])
      | some c =>
        match begun with
        | some start => readItem s stop (itemsFrom s stop fuel) i depth start c
        | none =>
          if Text.isSpace c || c == ';' then itemsFrom s stop fuel (i + 1) depth none
          else if c == '}' then
            let (items, problems) := itemsFrom s stop fuel (i + 1) depth none
            (items, .unexpectedBrace (s.lineAt i) :: problems)
          else readItem s stop (itemsFrom s stop fuel) i depth i c
    else
      match begun with
      | none => ([], [])
      | some start =>
        let last := s.prevCode stop start
        (if start < last then [statementItem s start last none] else [], [])

/-- The items from `start` up to `stop`, and what is wrong between them. -/
def items (s : Scanned) (start stop : Nat) : Items :=
  itemsFrom s stop (stop - start + 1) start 0 none

end MemberOrder.Style
