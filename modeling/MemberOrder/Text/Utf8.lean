/-
  UTF-8: texts as bytes and back. Bytes that are no UTF-8 are reported with the place of the
  first fault.
-/
import MemberOrder.Text.Quoted

namespace MemberOrder.Utf8

/-- What is wrong with a sequence of bytes. -/
inductive Problem where
  | invalidStart
  | invalidContinuation
  | unexpectedEnd
  deriving Repr, DecidableEq

/-- A fault: the bytes from `start` up to `stop`, of which `byte` is the first. -/
structure Fault where
  start : Nat
  stop : Nat
  byte : UInt8
  problem : Problem
  deriving Repr, DecidableEq

/-- How a problem is worded. -/
def Problem.message : Problem → String
  | .invalidStart => "invalid start byte"
  | .invalidContinuation => "invalid continuation byte"
  | .unexpectedEnd => "unexpected end of data"

/-- How a fault is reported. -/
def Fault.message (f : Fault) : String :=
  let place :=
    if f.stop == f.start + 1 then
      "byte 0x" ++ String.ofList (Text.hexDigits 2 f.byte.toNat) ++ " in position "
        ++ toString f.start
    else "bytes in position " ++ toString f.start ++ "-" ++ toString (f.stop - 1)
  "'utf-8' codec can't decode " ++ place ++ ": " ++ f.problem.message

/-- The bytes of a character. -/
def encodeChar (c : Char) : List UInt8 :=
  let n := c.toNat
  let tail (k : Nat) : UInt8 := UInt8.ofNat (0x80 + n / Nat.pow 64 k % 64)
  if n < 0x80 then [UInt8.ofNat n]
  else if n < 0x800 then [UInt8.ofNat (0xC0 + n / 64), tail 0]
  else if n < 0x10000 then [UInt8.ofNat (0xE0 + n / 4096), tail 1, tail 0]
  else [UInt8.ofNat (0xF0 + n / 262144), tail 2, tail 1, tail 0]

/-- The bytes of a text. -/
def encode (cs : List Char) : List UInt8 := cs.flatMap encodeChar

/-- A byte that goes on with a character. -/
def isContinuation (b : UInt8) : Bool := b.toNat / 64 == 2

/-- The six bits of a byte that goes on with a character. -/
def bits (b : UInt8) : Nat := b.toNat % 64

/-- The first character of some bytes and its width, or what is wrong with it and how many
bytes are at fault. -/
def decodeChar (first : UInt8) (rest : List UInt8) : Except (Problem × Nat) (Char × Nat) :=
  let n := first.toNat
  if n < 0x80 then .ok (Char.ofNat n, 1)
  else if n < 0xC2 then .error (.invalidStart, 1)
  else if n < 0xE0 then
    match rest with
    | [] => .error (.unexpectedEnd, 1)
    | b :: _ =>
      if isContinuation b then .ok (Char.ofNat ((n - 0xC0) * 64 + bits b), 2)
      else .error (.invalidContinuation, 1)
  else if n < 0xF0 then
    match rest with
    | [] => .error (.unexpectedEnd, 1)
    | b :: more =>
      if !isContinuation b || (if b.toNat < 0xA0 then n == 0xE0 else n == 0xED) then
        .error (.invalidContinuation, 1)
      else
        match more with
        | [] => .error (.unexpectedEnd, 2)
        | c :: _ =>
          if isContinuation c then
            .ok (Char.ofNat (((n - 0xE0) * 64 + bits b) * 64 + bits c), 3)
          else .error (.invalidContinuation, 2)
  else if n < 0xF5 then
    match rest with
    | [] => .error (.unexpectedEnd, 1)
    | b :: more =>
      if !isContinuation b || (if b.toNat < 0x90 then n == 0xF0 else n == 0xF4) then
        .error (.invalidContinuation, 1)
      else
        match more with
        | [] => .error (.unexpectedEnd, 2)
        | c :: more =>
          if !isContinuation c then .error (.invalidContinuation, 2)
          else
            match more with
            | [] => .error (.unexpectedEnd, 3)
            | d :: _ =>
              if isContinuation d then
                .ok (Char.ofNat ((((n - 0xF0) * 64 + bits b) * 64 + bits c) * 64 + bits d), 4)
              else .error (.invalidContinuation, 3)
  else .error (.invalidStart, 1)

/-- The text of bytes, the first of which has an offset. Each round takes one character. -/
def decodeFrom : (fuel offset : Nat) → List UInt8 → Except Fault (List Char)
  | 0, _, _ => .ok []
  | _, _, [] => .ok []
  | fuel + 1, offset, first :: rest =>
    match decodeChar first rest with
    | .error (problem, width) => .error ⟨offset, offset + width, first, problem⟩
    | .ok (c, width) => do
      return c :: (← decodeFrom fuel (offset + width) (rest.drop (width - 1)))

/-- The text of bytes. -/
def decode (bytes : List UInt8) : Except Fault (List Char) := decodeFrom bytes.length 0 bytes

/-- The bytes of a byte order mark. -/
def byteOrderMark : List UInt8 := [0xEF, 0xBB, 0xBF]

/-- Drops a byte order mark in front; also one that is cut off by the end of the bytes. -/
def dropMark (bytes : List UInt8) : List UInt8 :=
  if byteOrderMark.isPrefixOf bytes then bytes.drop 3
  else if bytes.isPrefixOf byteOrderMark then []
  else bytes

/-- The text of a file: offsets count from behind a byte order mark. -/
def decodeFile (bytes : List UInt8) : Except Fault (List Char) := decode (dropMark bytes)

end MemberOrder.Utf8
