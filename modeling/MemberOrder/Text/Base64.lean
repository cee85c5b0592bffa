/-
  Base 64: bytes as letters, digits and two signs, four of them for three bytes. Reading passes
  over every other character; an equals sign ends it where it can fill up a group.
-/
import MemberOrder.Text.Quoted

namespace MemberOrder.Base64

/-- What keeps a text from being bytes. -/
inductive Problem where
  /-- One digit is left over, and how many there are. -/
  | oddDigit (count : Nat)
  | padding
  deriving Repr, DecidableEq

/-- How a problem is worded. -/
def Problem.message : Problem → String
  | .oddDigit count =>
    "Invalid base64-encoded string: number of data characters (" ++ toString count
      ++ ") cannot be 1 more than a multiple of 4"
  | .padding => "Incorrect padding"

/-- The digits in the order of their values. -/
def alphabet : List Char :=
  "ABCDEFGHIJKLMNOPQRSTUVWXYZabcdefghijklmnopqrstuvwxyz0123456789+/".toList

/-- The value of a digit. -/
def value? (c : Char) : Option Nat :=
  let i := alphabet.idxOf c
  if i < 64 then some i else none

/-- The digits up to the end of the text or of its padding, and whether the padding is
complete. `filled` counts the digits of the last group, `pads` the signs after them. -/
def digits : List Char → (filled pads : Nat) → List Nat × Bool
  | [], _, _ => ([], false)
  | c :: rest, filled, pads =>
    if c == '=' then
      if filled < 2 then digits rest filled pads
      else if 4 ≤ filled + pads + 1 then ([], true)
      else digits rest filled (pads + 1)
    else
      match value? c with
      | none => digits rest filled pads
      | some v =>
        let (more, closed) := digits rest ((filled + 1) % 4) 0
        (v :: more, closed)

/-- The bytes of groups of digits. -/
def bytesOf : List Nat → List UInt8
  | a :: b :: c :: d :: rest =>
    UInt8.ofNat (a * 4 + b / 16) :: UInt8.ofNat (b % 16 * 16 + c / 4)
      :: UInt8.ofNat (c % 4 * 64 + d) :: bytesOf rest
  | [a, b, c] => [UInt8.ofNat (a * 4 + b / 16), UInt8.ofNat (b % 16 * 16 + c / 4)]
  | [a, b] => [UInt8.ofNat (a * 4 + b / 16)]
  | _ => []

/-- The bytes that a text stands for. -/
def decode (cs : List Char) : Except Problem (List UInt8) :=
  let (ds, closed) := digits cs 0 0
  let left := ds.length % 4
  if closed || left == 0 then .ok (bytesOf ds)
  else if left == 1 then .error (.oddDigit ds.length)
  else .error .padding

/-- The digit of a value. -/
def digit (v : Nat) : Char := alphabet.getD v '='

/-- The digits of bytes, filled up to whole groups. -/
def encode : List UInt8 → List Char
  | a :: b :: c :: rest =>
    let n := (a.toNat * 256 + b.toNat) * 256 + c.toNat
    digit (n / 262144) :: digit (n / 4096 % 64) :: digit (n / 64 % 64) :: digit (n % 64)
      :: encode rest
  | [a, b] =>
    let n := (a.toNat * 256 + b.toNat) * 4
    [digit (n / 4096), digit (n / 64 % 64), digit (n % 64), '=']
  | [a] => [digit (a.toNat / 4), digit (a.toNat % 4 * 16), '=', '=']
  | [] => []

/-- Digits in lines of at most 76, each with a line feed. -/
def inLines : (fuel : Nat) → List Char → List Char
  | 0, _ => []
  | fuel + 1, cs =>
    if cs.isEmpty then [] else cs.take 76 ++ ['\n'] ++ inLines fuel (cs.drop 76)

/-- The text of bytes, in lines. -/
def encodeLines (bytes : List UInt8) : List Char :=
  let cs := encode bytes
  inLines (cs.length + 1) cs

/-- One byte as diagnostics show it. -/
def shownByte (quote : Char) (b : UInt8) : List Char :=
  let c := Char.ofNat b.toNat
  if c == '\\' || c == quote then ['\\', c]
  else if c == '\t' then ['\\', 't']
  else if c == '\n' then ['\\', 'n']
  else if c == '\r' then ['\\', 'r']
  else if b.toNat < 0x20 || 0x7F ≤ b.toNat then ['\\', 'x'] ++ Text.hexDigits 2 b.toNat
  else [c]

/-- Bytes as diagnostics show them. -/
def shown (bytes : List UInt8) : String :=
  let single := Char.ofNat 39
  let quote := if bytes.contains 39 && !bytes.contains 34 then '"' else single
  String.ofList ('b' :: quote :: bytes.flatMap (shownByte quote) ++ [quote])

end MemberOrder.Base64
