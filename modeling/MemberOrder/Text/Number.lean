/-
  Numbers as people write them.
-/
import MemberOrder.Number.Binary64
import MemberOrder.Text.Basic
import MemberOrder.Text.Digit
import MemberOrder.Text.Quoted

/-!
Integers as people write them: blanks around, a sign in front, digits of any script, and
single underscores between digits. A decimal of very many digits is refused.
-/

namespace MemberOrder.Text

/-- The natural number that digits write, with single underscores between them. -/
def readGrouped? (cs : List Char) : Option Nat :=
  let groups := splitAt (· == '_') cs
  if groups.any (·.isEmpty) then none else readDecimal? groups.flatten

/-- Takes a sign off a text: whether it is a minus, and the rest. -/
def takeSign (cs : List Char) : Bool × List Char :=
  match cs with
  | '-' :: rest => (true, rest)
  | '+' :: rest => (false, rest)
  | _ => (false, cs)

/-- The integer that a text writes. -/
def readInteger? (cs : List Char) : Option Int :=
  let (negative, digits) := takeSign (trim cs)
  (readGrouped? digits).map fun n => if negative then -(n : Int) else n

/-- The greatest number of digits of a decimal that is read. -/
def digitLimit : Nat := 4300

/-- What keeps a text from being an integer. -/
inductive IntegerProblem where
  /-- The text is none in this base. -/
  | noInteger (base : Nat) (text : String)
  | tooLong (count : Nat)
  deriving Repr, DecidableEq

/-- How it is reported that a text is no integer. -/
def IntegerProblem.message : IntegerProblem → String
  | .noInteger base text =>
    "invalid literal for int() with base " ++ toString base ++ ": " ++ quoted text
  | .tooLong count =>
    "Exceeds the limit (" ++ toString digitLimit
      ++ " digits) for integer string conversion: value has " ++ toString count
      ++ " digits; use sys.set_int_max_str_digits() to increase the limit"

/-- Whether a decimal has more digits than are read, and how many. -/
def excessDigits? (cs : List Char) : Option Nat :=
  let count := cs.countP isDecimal
  if digitLimit < count then some count else none

/-- The integer that a text writes, or why it writes none. -/
def readInteger (cs : List Char) : Except IntegerProblem Int :=
  match readInteger? cs, excessDigits? cs with
  | some _, some count => .error (.tooLong count)
  | some n, none => .ok n
  | none, _ => .error (.noInteger 10 (String.ofList cs))

/-! ## Other bases -/

/-- The value of a digit of a base up to sixteen. -/
def digitValue? (base : Nat) (c : Char) : Option Nat :=
  let value := match decimalValue? c with
    | some v => v
    | none =>
      if 'a' ≤ c && c ≤ 'f' then c.toNat - 87
      else if 'A' ≤ c && c ≤ 'F' then c.toNat - 55
      else base
  if value < base then some value else none

/-- The natural number that digits of a base write; there is at least one. -/
def readDigits? (base : Nat) (cs : List Char) : Option Nat :=
  if cs.isEmpty then none
  else cs.foldl (fun n c => do return (← n) * base + (← digitValue? base c)) (some 0)

/-- The letter that marks a base. -/
def baseLetter (base : Nat) : Char := if base == 2 then 'b' else if base == 8 then 'o' else 'x'

/-- Digits of a base without the mark that may stand in front of them. -/
def dropBaseMark (base : Nat) (cs : List Char) : List Char :=
  match cs with
  | '0' :: c :: rest => if c.toLower == baseLetter base then rest else cs
  | _ => cs

/-- The integer that a text writes to the base two, eight or sixteen. -/
def readBased (base : Nat) (cs : List Char) : Except IntegerProblem Int :=
  let (negative, digits) := takeSign (trim cs)
  match readDigits? base (dropBaseMark base digits) with
  | some n => .ok (if negative then -(n : Int) else n)
  | none => .error (.noInteger base (String.ofList cs))

end MemberOrder.Text

/-!
Real numbers as people write them: blanks around, a sign in front, digits of any script, a
point, an exponent; or a word for what is no finite number.
-/

namespace MemberOrder.Text

/-- The number that digits write; the number of no digits is zero. -/
def digitsValue (cs : List Char) : Nat :=
  cs.foldl (fun n c => n * 10 + (decimalValue? c).getD 0) 0

/-- The exponent that the end of a number writes. -/
def readExponent? (cs : List Char) : Option Int :=
  match cs with
  | [] => some 0
  | 'e' :: rest =>
    let (negative, digits) := takeSign rest
    if digits.isEmpty || !digits.all isDecimal then none
    else some (if negative then -(digitsValue digits : Int) else digitsValue digits)
  | _ => none

/-- The finite number that a text without a sign writes. -/
def readFinite? (negative : Bool) (cs : List Char) : Option Binary64 := do
  let whole := cs.takeWhile isDecimal
  let cs := cs.drop whole.length
  let (fraction, cs) := match cs with
    | '.' :: rest => (rest.takeWhile isDecimal, rest.dropWhile isDecimal)
    | _ => ([], cs)
  if whole.isEmpty && fraction.isEmpty then none
  let exponent ← readExponent? cs
  return Binary64.ofDecimal negative (digitsValue (whole ++ fraction)) (exponent - fraction.length)

/-- The number that a text writes. -/
def readReal? (cs : List Char) : Option Binary64 :=
  let (negative, cs) := takeSign ((trim cs).map Char.toLower)
  if cs == "inf".toList || cs == "infinity".toList then some ⟨negative, Binary64.infinite⟩
  else if cs == "nan".toList then some Binary64.nan
  else readFinite? negative cs

end MemberOrder.Text
