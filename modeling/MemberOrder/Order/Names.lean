/-
  The order of names: quotes do not count, names that are numbers come first and by value,
  all others by code points. In natural order, runs of digits count by value as well.
-/
import MemberOrder.Number.Binary64
import MemberOrder.Options.Basic
import MemberOrder.Pattern.Basic
import MemberOrder.Text.Number

namespace MemberOrder.Order

/-- Why two names cannot be compared. -/
inductive Fault where
  /-- A run of digit characters that is no number. -/
  | notANumber (problem : Text.IntegerProblem)
  deriving Repr, DecidableEq

/-- How a fault is reported. -/
def Fault.message : Fault → String
  | .notANumber problem => problem.message

/-! ## Names as they are compared -/

/-- The characters that can quote a name. -/
def isQuote (c : Char) : Bool := c == '"' || c.toNat == 39 || c.toNat == 96

/-- A name without the quotes around it. -/
def stripQuotes (cs : List Char) : List Char :=
  match cs with
  | first :: rest =>
    if isQuote first && !rest.isEmpty && rest.getLast? == some first then rest.dropLast else cs
  | [] => []

/-- Numbers in their usual form: no leading zeros, no zeros at the end of a fraction. -/
def canonicalNumber : Pattern :=
  .all [.optional (.char '-'),
    .either (.char '0') (.seq (.one fun c => '1' ≤ c && c ≤ '9') (.span Text.isDecimal)),
    .optional (.all [.char '.', .span Text.isDecimal, .one fun c => '1' ≤ c && c ≤ '9'])]

/-- The number that a decimal text denotes: a sign, digits and a fraction. -/
def readNumber (cs : List Char) : Binary64 :=
  let negative := cs.head? == some '-'
  let whole := cs.takeWhile (· != '.')
  let fraction := cs.drop (whole.length + 1)
  let digits := (whole ++ fraction).filterMap Text.decimalValue?
  Binary64.ofDecimal negative (digits.foldl (fun n d => n * 10 + d) 0) (-(fraction.length : Int))

/-- The value of a name that is exactly a number. -/
def numericValue? (name : List Char) : Option Binary64 :=
  let clean := Text.trim (stripQuotes name)
  if canonicalNumber.fits (String.ofList clean) then some (readNumber clean) else none

/-! ## Comparing -/

/-- Compares texts by code points; a text comes before its continuations. -/
def compareChars : List Char → List Char → Ordering
  | [], [] => .eq
  | [], _ :: _ => .lt
  | _ :: _, [] => .gt
  | a :: as, b :: bs =>
    match compare a.toNat b.toNat with
    | .eq => compareChars as bs
    | r => r

/-- The order of names: numbers by value, then all other names by code points. -/
def comparePlain (a b : List Char) : Ordering :=
  match numericValue? a, numericValue? b with
  | some x, some y => x.order y
  | some _, none => .lt
  | none, some _ => .gt
  | none, none => compareChars (stripQuotes a) (stripQuotes b)

/-- Cuts a text into runs of decimal digits and runs of anything else. -/
def digitRuns : List Char → List (List Char)
  | [] => []
  | c :: rest =>
    match digitRuns rest with
    | (d :: run) :: others =>
      if Text.isDecimal c == Text.isDecimal d then (c :: d :: run) :: others
      else [c] :: (d :: run) :: others
    | others => [c] :: others

/-- Whether a run consists of digit characters. -/
def isDigits (run : List Char) : Bool := !run.isEmpty && run.all Text.isDigit

/-- The number that a run of digits denotes. -/
def runValue (run : List Char) : Except Fault Nat :=
  match Text.readInteger run with
  | .ok n => .ok n.toNat
  | .error problem => .error (.notANumber problem)

/-- Compares one run of each of two texts; a missing run counts as empty. -/
def compareRun (a b : List Char) : Except Fault Ordering :=
  if isDigits a && isDigits b then do
    return compare (← runValue a) (← runValue b)
  else .ok (compareChars a b)

/-- Compares texts run by run. -/
def compareRuns : List (List Char) → List (List Char) → Except Fault Ordering
  | [], [] => .ok .eq
  | [], b :: bs => do
    match ← compareRun [] b with
    | .eq => compareRuns [] bs
    | r => return r
  | a :: as, [] => do
    match ← compareRun a [] with
    | .eq => compareRuns as []
    | r => return r
  | a :: as, b :: bs => do
    match ← compareRun a b with
    | .eq => compareRuns as bs
    | r => return r

/-- Compares texts so that runs of digits count by value. -/
def compareNatural (a b : List Char) : Except Fault Ordering :=
  compareRuns (digitRuns a) (digitRuns b)

/-- Compares two names in ascending order. -/
def compareAscending (o : Options) (a b : String) : Except Fault Ordering := do
  let fold (s : String) := (if o.caseSensitive then s else Text.lower s).toList
  let a := fold a
  let b := fold b
  if o.naturalSort then
    match ← compareNatural (stripQuotes a) (stripQuotes b) with
    | .eq => return comparePlain a b
    | r => return r
  else return comparePlain a b

/-- Turns a comparison around in descending order. -/
def directed (o : Options) (r : Ordering) : Ordering := if o.isDescending then r.swap else r

/-- Compares two names in the direction of the options. -/
def compareNames (o : Options) (a b : String) : Except Fault Ordering :=
  return directed o (← compareAscending o a b)

end MemberOrder.Order
