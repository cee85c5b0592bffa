/-
  The arrangement of object members in scripts. Members whose value is a chain of calls
  usually depend on the order of evaluation, so they come first and keep their order.
-/
import MemberOrder.Model.Entity
import MemberOrder.Order.Chain

namespace MemberOrder.Order

/-- Quoted texts. -/
def quotedText : Pattern :=
  let single := String.singleton (Char.ofNat 39)
  let grave := String.singleton (Char.ofNat 96)
  .choice [
    .all [.word single, .spanNot (single ++ "\n"), .word single],
    .all [.word "\"", .spanNot "\"\n", .word "\""],
    .all [.word grave, .spanNot grave, .word grave]]

/-- Comments of either shape. -/
def commentText : Pattern :=
  .choice [
    .all [.word "/*", .fewest fun _ => true, .word "*/"],
    .all [.word "//", .spanNot "\n"]]

/-- The arguments of a call, without parentheses among them. -/
def callArguments : Pattern := .all [.char '(', .spanNot ")", .char ')']

/-- A member access. -/
def access : Pattern := .seq (.char '.') (.some1 Text.isWord)

/-- Two calls or accesses in a row. -/
def callChain : Pattern :=
  .choice [
    .all [access, callArguments, .spaces, access, callArguments],
    .all [access, callArguments, .spaces, access],
    .all [.some1 Text.isWord, callArguments, .spaces, access, callArguments]]

/-- Whether a value is a chain of calls, quoted texts and comments left aside. -/
def hasMethodChain (value : String) : Bool :=
  let unquoted := quotedText.replaceAll (Text.ofString value) fun _ => ['"', '"']
  let code := commentText.replaceAll unquoted.toArray fun _ => []
  (callChain.search? code.toArray 0 code.length).isSome

/-- Whether the value of a member is a chain of calls. -/
def isChained (m : Member) : Bool :=
  match m.info.value.text? with
  | some value => hasMethodChain value
  | none => false

/-- Arranges the members of a script's declaration; chains stay ahead, but not in types. -/
def arrangeScript {α : Type} (o : Options) (context : Option EntityKind) (view : α → Member)
    (items : List α) : Except Fault (List α) := do
  let inType := context == some .interface || context == some .typeLiteral
  if o.preserveMethodChaining && !inType then
    let chained := items.filter fun x => isChained (view x)
    let rest := items.filter fun x => !isChained (view x)
    return chained ++ (← sortGroup o view rest)
  else sortGroup o view items

end MemberOrder.Order
