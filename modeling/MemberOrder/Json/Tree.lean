/-
  JSON documents as trees of offsets. The reader works on a masked text, where the inside
  of a string cannot be mistaken for a bracket or a comma and where comments are white
  space; a comma may follow the last member.
-/
import MemberOrder.Model.Entity
import MemberOrder.Pattern.Basic
import MemberOrder.Source.Brackets
import MemberOrder.Source.Scanned

namespace MemberOrder.Json

/-- Where a member of a container stands: its first offset, the offset just past its key,
and the offset of the comma after it. An element of an array has no key; its key ends
where it starts. -/
structure Slot where
  start : Nat
  keyStop : Nat
  comma : Option Nat
  deriving Repr, DecidableEq, Inhabited

/-- A value: the offsets it covers, and the members of a container. -/
inductive Tree where
  | scalar (start stop : Nat)
  | container (isObject : Bool) (start stop : Nat) (members : List (Slot × Tree))
  deriving Repr, Inhabited

namespace Tree

/-- The first offset of a value. -/
def start : Tree → Nat
  | .scalar a _ | .container _ a _ _ => a

/-- The offset just past a value. -/
def stop : Tree → Nat
  | .scalar _ b | .container _ _ b _ => b

end Tree

/-- A problem and the line it is on. -/
abbrev Fault := JsonProblem × Nat

/-- Numbers: an integer without leading zeros, a fraction, an exponent. -/
def number : Pattern :=
  let digits := Pattern.some1 Text.isDecimal
  .all [.optional (.char '-'),
    .either (.char '0') (.seq (.one fun c => '1' ≤ c && c ≤ '9') (.span Text.isDecimal)),
    .optional (.seq (.char '.') digits),
    .optional (.all [.oneOf "eE", .optional (.oneOf "+-"), digits])]

/-- The three words that are values. -/
def word : Pattern := .choice [.word "true", .word "false", .word "null"]

/-- The offset just past the string whose opening quote stands at `i`. -/
def stringStop (s : Scanned) (i : Nat) : Except Fault Nat :=
  match s.masked.find? ['"'] (i + 1) with
  | none => .error (.unterminatedString, s.lineAt i)
  | some close =>
    if (s.masked.slice i close).contains '\n' then .error (.unterminatedString, s.lineAt i)
    else .ok (close + 1)

/-- The offset just past the number or word at `i`. -/
def plainStop (s : Scanned) (i : Nat) : Except Fault Nat :=
  match number.matchAt? s.masked i s.masked.size <|> word.matchAt? s.masked i s.masked.size with
  | some m => .ok m.stop
  | none =>
    let token := match Text.words (s.masked.slice i (i + 10)) with
      | w :: _ => String.ofList w
      | [] => "end of input"
    .error (.unexpectedToken token, s.lineAt i)

/-- Reads the key of a member of an object at `i`: the offset just past the key and the
offset of the value. -/
def readKey (s : Scanned) (close i : Nat) : Except Fault (Nat × Nat) := do
  if !s.masked.hasAt i '"' then
    throw (.expectedName (s.masked.getD i ' '), s.lineAt i)
  let keyStop ← stringStop s i
  let colon := s.nextCode keyStop close
  if !s.masked.hasAt colon ':' then throw (.expectedColon, s.lineAt colon)
  return (keyStop, s.nextCode (colon + 1) close)

/-- Reads the members of a container from `i` up to its closing bracket, at most `fuel` of
them, reading each value with `value`. -/
def readMembers (s : Scanned) (isObject : Bool) (close : Nat) (value : Nat → Except Fault Tree) :
    (fuel i : Nat) → Except Fault (List (Slot × Tree))
  | 0, _ => .ok []
  | fuel + 1, i =>
    if i < close then do
      let (keyStop, valueAt) ← if isObject then readKey s close i else pure (i, i)
      if close ≤ valueAt then throw (.missingValue, s.lineAt valueAt)
      let tree ← value valueAt
      let next := s.nextCode tree.stop close
      if next < close then
        if s.masked.hasAt next ',' then
          let rest ← readMembers s isObject close value fuel (s.nextCode (next + 1) close)
          return (⟨i, keyStop, some next⟩, tree) :: rest
        else throw (.expectedComma (s.masked.getD next ' '), s.lineAt next)
      else return [(⟨i, keyStop, none⟩, tree)]
    else .ok []

/-- Reads the value at `i`; `fuel` bounds the depth of containers. -/
def readValue (s : Scanned) : (fuel i : Nat) → Except Fault Tree
  | 0, i => .ok (.scalar i i)
  | fuel + 1, i =>
    if s.masked.hasAt i '{' || s.masked.hasAt i '[' then
      match Brackets.close? Brackets.data s.masked i with
      | none => .error (.unclosed (s.masked.getD i ' '), s.lineAt i)
      | some close => do
        let isObject := s.masked.hasAt i '{'
        let members ← readMembers s isObject close (readValue s fuel) (close - i)
          (s.nextCode (i + 1) close)
        return .container isObject i (close + 1) members
    else if s.masked.hasAt i '"' then return .scalar i (← stringStop s i)
    else return .scalar i (← plainStop s i)

/-- Reads a document: nothing but white space and comments, or one object or array between
them. -/
def readDocument (s : Scanned) : Except Fault (Option Tree) := do
  let start := s.nextCodeToEnd 0
  match s.masked[start]? with
  | none => return none
  | some opener =>
    if opener != '{' && opener != '[' then
      throw (.expectedRoot opener, s.lineAt start)
    let tree ← readValue s (s.masked.size + 1) start
    let rest := s.nextCodeToEnd tree.stop
    match s.masked[rest]? with
    | some found => throw (.afterRoot found, s.lineAt rest)
    | none => return some tree

end MemberOrder.Json
