/-
  What a scalar denotes by its tag. The first versions of YAML have octal numbers with a zero
  in front and numbers to the base sixty; a later version reads both in its own way.
-/
import MemberOrder.Data.Node
import MemberOrder.Number.Binary64
import MemberOrder.Text.Case
import MemberOrder.Text.Number
import MemberOrder.Yaml.Looks
import MemberOrder.Yaml.Problem

/-!
Numbers as they are written back: an integer in its base with its zeros and underscores, a
fraction with as many digits as it had. What was written first gives the layout only; the
digits are those of the value.
-/

namespace MemberOrder.Yaml

/-! ## Integers -/

/-- The digits of a natural number in a base up to sixteen. -/
def digitsIn (base n : Nat) (capital : Bool) : List Char :=
  let ds := Nat.toDigits base n
  if capital then ds.map Char.toUpper else ds

/-- An integer in a base, filled up with zeros to a width that counts its sign. -/
def paddedInt (base : Nat) (capital : Bool) (width : Nat) (n : Int) : List Char :=
  let ds := digitsIn base n.natAbs capital
  let sign := if n < 0 then ['-'] else []
  sign ++ List.replicate (width - sign.length - ds.length) '0' ++ ds

/-- Inserts an underscore in front of every group of digits, counted from the end. -/
def groupDigits (size : Nat) (cs : List Char) : List Char :=
  if size == 0 then cs
  else
    let step := fun (done : List Char) (i : Nat) =>
      let c := cs.getD (cs.length - 1 - i) '0'
      if i != 0 && i % size == 0 then c :: '_' :: done else c :: done
    (List.range cs.length).foldl step []

/-- The number of digits after the last underscore that digits follow, if there is one. -/
def groupSize? (cs : List Char) : Option Nat :=
  let trimmed := cs.reverse.dropWhile (· == '_')
  if trimmed.contains '_' then some (trimmed.takeWhile (· != '_')).length else none

/-- An integer in the layout of a text, without a plus sign. `zeros` tells whether zeros in
front are part of the layout. -/
def writtenInt (layout : List Char) (zeros : Bool) (n : Int) : List Char :=
  let (_, digits) := Text.takeSign (layout.filter (· != '_'))
  let grouped (body : List Char) : List Char :=
    match groupSize? layout with
    | none => body
    | some size =>
      groupDigits size body ++ (if layout.getLast? == some '_' then ['_'] else [])
  let based (base : Nat) (mark : Char) (rest : List Char) : List Char :=
    let width := if zeros && rest.head? == some '0' then rest.length else 0
    let capital := (rest.find? Char.isAlpha).map Char.isUpper == some true
    let lead := if (groupSize? layout).isSome && layout.getD 2 '0' == '_' then ['_'] else []
    '0' :: mark :: lead ++ grouped (paddedInt base capital width n)
  match digits with
  | '0' :: 'b' :: rest => based 2 'b' rest
  | '0' :: 'x' :: rest => based 16 'x' rest
  | '0' :: 'o' :: rest => based 8 'o' rest
  | ['0'] => ['0']
  | '0' :: _ => grouped (paddedInt 10 false digits.length n)
  | _ => grouped (paddedInt 10 false 0 n)

/-! ## Fractions -/

/-- The layout of a fraction. -/
structure FractionLayout where
  /-- The number of characters before an exponent; a sign counts where there is none. -/
  width : Nat
  /-- The place of the point. -/
  point : Option Nat
  sign : Option Char
  /-- The number of zeros in front. -/
  zeros : Nat := 0
  /-- The letter of the exponent, its width, and whether it has a sign. -/
  exponent : Option (Char × Nat × Bool) := none
  deriving Repr, DecidableEq

/-- The zeros in front of a text of digits; a point among them does not count. -/
def leadingZeros (cs : List Char) : Nat :=
  (cs.takeWhile fun c => c == '0' || c == '.').countP (· == '0')

/-- Drops a zero in front of every point. -/
def dropZeroPoints : List Char → List Char
  | '0' :: '.' :: rest => '.' :: dropZeroPoints rest
  | c :: rest => c :: dropZeroPoints rest
  | [] => []

/-- Fills up a text with zeros at its end. -/
def fillZeros (width : Nat) (cs : List Char) : List Char :=
  cs ++ List.replicate (width - cs.length) '0'

/-- A magnitude with a number of places, filled up with zeros in front. -/
def paddedFixed (x : Binary64) (width places : Nat) : List Char :=
  let cs := x.fixedText places
  List.replicate (width - cs.length) '0' ++ cs

/-- A fraction without an exponent. -/
def writtenFixed (l : FractionLayout) (x : Binary64) : List Char :=
  let sign := l.sign.toList
  let negative := if x.negative && x.whole != 0 then ['-'] else []
  match l.point with
  | none => sign ++ Binary64.paddedDigits (l.width - sign.length) x.whole
  | some point =>
    if 0 < point && point + 1 == l.width then
      sign ++ negative ++ Binary64.digitsOf x.whole ++ ['.']
    else
      let cs := sign ++ paddedFixed x (l.width - sign.length) (l.width - point - 1)
      let cs := if point == 0 || (point == 1 && !sign.isEmpty) then dropZeroPoints cs else cs
      fillZeros l.width cs

/-- Moves digits in front of the point until there are as many as were; each makes the
exponent smaller. -/
def movePoint (point : Nat) : (back front : List Char) → Int →
    Except NumberProblem (List Char × List Char × Int)
  | back, front, e =>
    if point ≤ front.length then .ok (front, back, e)
    else
      match back with
      | [] => .error .noDigit
      | d :: rest => movePoint point rest (front ++ [d]) (e - 1)

/-- An exponent with its sign, filled up with zeros to a width. -/
def writtenExponent (e : Int) (width : Nat) (signed : Bool) : List Char :=
  let sign := if e < 0 then ['-'] else if signed then ['+'] else []
  sign ++ Binary64.paddedDigits (width - sign.length) e.natAbs

/-- A fraction with an exponent. -/
def writtenScientific (l : FractionLayout) (letter : Char) (exponentWidth : Nat) (signed : Bool)
    (x : Binary64) : Except NumberProblem (List Char) := do
  let (digits, e) := x.scientificText (l.width + if l.sign.isSome then 1 else 0)
  let minus := if x.negative then ['-'] else []
  let mantissa := minus ++ digits
  let isBelow := x.negative && x.magnitude != 0
  let isAbove := !x.negative && x.magnitude != 0
  let width := (if (l.point.getD 0) != 0 then l.width else l.width + 1) + if isBelow then 1 else 0
  let mantissa := mantissa.take width
  if !mantissa.contains '.' then throw .noPoint
  let front := mantissa.takeWhile (· != '.')
  let back := mantissa.drop (front.length + 1)
  let least := l.width - if l.point.isSome then 1 else 0
  let back := back ++ List.replicate (least - (front.length + back.length)) '0'
  let front := if l.sign.isSome && isAbove then '+' :: front else front
  let tail (e : Int) : List Char := letter :: writtenExponent e exponentWidth signed
  match l.point with
  | none =>
    let (back, e) := if back == ['0'] then ([], e) else (back, e - back.length)
    let extra := if l.sign.isSome then 1 else 0
    let missing := l.width + extra - (front.length + back.length)
    return front ++ back ++ List.replicate missing '0' ++ tail (e - missing)
  | some 0 => return front ++ back ++ ['.'] ++ tail (e - back.length)
  | some point =>
    let (front, back, e) :=
      if l.zeros == 0 then (front, back, e)
      else
        let back := List.replicate (l.zeros - 1) '0' ++ front ++ back
        (['0'], back.take (back.length - l.zeros), e + l.zeros)
    let (front, back, e) ← movePoint point back front e
    return front ++ ['.'] ++ back ++ tail e

/-- The text of what is no finite number, if a number is none. -/
def writtenInfinite? (x : Binary64) : Option String :=
  if x.magnitude < Binary64.infinite then none
  else if Binary64.infinite < x.magnitude then some ".nan"
  else some (if x.negative then "-.inf" else ".inf")

/-- A number in a layout. -/
def writtenFloat (l : FractionLayout) (x : Binary64) : Written :=
  match writtenInfinite? x with
  | some text => .as text
  | none =>
    match l.exponent with
    | none => .as (String.ofList (writtenFixed l x))
    | some (letter, width, signed) =>
      match writtenScientific l letter width signed x with
      | .ok text => .as (String.ofList text)
      | .error problem => .never problem

/-- A number that has no layout. -/
def writtenShortest (x : Binary64) : String := (writtenInfinite? x).getD x.text

end MemberOrder.Yaml

/-! ## Types -/

namespace MemberOrder.Yaml

/-- What a scalar denotes, and what is kept of its writing. -/
structure Denoted where
  value : Scalar
  /-- How a number is written back. -/
  written : Written := .anew
  /-- Whether an anchor on the scalar is kept. -/
  anchored : Bool := true

/-- The value of digits to the base sixty, the highest first. -/
def fromSixtieths {α : Type} (zero : α) (add : α → α → α) (times : α → Nat → α)
    (digits : List α) : α :=
  (digits.foldr (fun d (sum, base) => (add sum (times d base), base * 60)) (zero, 1)).1

/-! ## Integers -/

/-- The integer that digits to the base sixty write. -/
def readSixtyInt (cs : List Char) : Except Failure Int := do
  let digits ← (Text.splitAt (· == ':') cs).mapM fun part =>
    (Text.readInteger part).mapError .integer
  return fromSixtieths 0 (· + ·) (fun n base => n * base) digits

/-- The integer that a text writes. Underscores do not count, and a base other than ten has a
mark in front. Where the layout is kept, a digit has to follow the mark. -/
def readInt (version : Nat × Nat) (keeping : Bool) (s : String) : Except Failure Denoted := do
  let layout := s.toList
  let isLater := 1 < version.2
  let cs := layout.filter (· != '_')
  if cs.isEmpty then throw .noDigits
  let (negative, digits) := Text.takeSign cs
  let signed (n : Int) : Int := if negative then -n else n
  let kept (n : Int) : Denoted :=
    { value := .int n, written := .as (String.ofList (writtenInt layout isLater n)) }
  let anew (n : Int) : Denoted := { value := .int n, anchored := false }
  let based (base : Nat) (rest : List Char) : Except Failure Denoted := do
    if keeping && isLater && rest.isEmpty then throw .noDigits
    return kept (signed (← (Text.readBased base rest).mapError .integer))
  match digits with
  | [] => throw .noDigits
  | ['0'] => return kept 0
  | '0' :: 'b' :: rest => based 2 rest
  | '0' :: 'x' :: rest => based 16 rest
  | '0' :: 'o' :: rest => based 8 rest
  | first :: _ =>
    if version != (1, 2) && first == '0' then
      return anew (signed (← (Text.readBased 8 digits).mapError .integer))
    if version != (1, 2) && digits.contains ':' then return anew (signed (← readSixtyInt digits))
    return kept (signed (← (Text.readInteger digits).mapError .integer))

/-! ## Fractions -/

/-- The number that a text without a sign writes. -/
def readReal (cs : List Char) : Except Failure Binary64 :=
  match Text.readReal? cs with
  | some x => .ok x
  | none => .error (.number (String.ofList cs))

/-- Mantissa and exponent of a number as they are written, and the letter between them. -/
def splitExponent (cs : List Char) : Except Failure (List Char × Char × List Char) :=
  match Text.splitAt (· == 'e') cs with
  | [mantissa, exponent] => .ok (mantissa, 'e', exponent)
  | _ =>
    match Text.splitAt (· == 'E') cs with
    | [mantissa, exponent] => .ok (mantissa, 'E', exponent)
    | parts => .error (.exponents parts.length)

/-- The place of the point in a text. -/
def pointOf (cs : List Char) : Option Nat :=
  if cs.contains '.' then some (cs.idxOf '.') else none

/-- The layout of a fraction. -/
def layoutOf (cs : List Char) (sign : Option Char) (hasExponent : Bool) :
    Except Failure FractionLayout :=
  if !hasExponent then .ok { width := cs.length, point := pointOf cs, sign }
  else do
    let (mantissa, letter, exponent) ← splitExponent cs
    match exponent with
    | [] => throw .noDigits
    | first :: _ =>
      return {
        width := mantissa.length - if sign.isSome then 1 else 0
        point := pointOf mantissa
        sign
        zeros := leadingZeros mantissa
        exponent := some (letter, exponent.length, first == '+' || first == '-') }

/-- The fraction that a text writes. Underscores do not count. -/
def readFloat (version : Nat × Nat) (keeping : Bool) (s : String) : Except Failure Denoted := do
  let cs := (Text.lower (String.ofList (s.toList.filter (· != '_')))).toList
  if cs.isEmpty then throw .noDigits
  let sign := cs.head?.filter fun c => c == '-' || c == '+'
  let digits := if sign.isSome then cs.drop 1 else cs
  let signed (x : Binary64) : Binary64 := if sign == some '-' then x.negated else x
  let anew (x : Binary64) : Denoted := { value := .float x, anchored := false }
  if digits == ".inf".toList then return anew (signed Binary64.infinity)
  if digits == ".nan".toList then return anew Binary64.nan
  if version != (1, 2) && digits.contains ':' then
    let parts ← (Text.splitAt (· == ':') digits).mapM readReal
    return anew (signed (fromSixtieths ⟨false, 0⟩ Binary64.plus Binary64.times parts))
  if !keeping then return anew (signed (← readReal digits))
  let layout ← layoutOf s.toList sign (digits.contains 'e')
  let x := signed (← readReal digits)
  return { value := .float x, written := writtenFloat layout x }

/-! ## Truth values -/

/-- The truth value that a word names. -/
def readBool (s : String) : Except Failure Denoted :=
  let word := Text.lower s
  if ["yes", "y", "true", "on"].contains word then .ok { value := .bool true }
  else if ["no", "n", "false", "off"].contains word then .ok { value := .bool false }
  else .error (.notTruth word)

/-! ## Moments -/

/-- Takes some digits off a text, as many as there are up to a number. -/
def takeDigits? (least most : Nat) (cs : List Char) : Option (Nat × List Char) :=
  let digits := (cs.take most).takeWhile Char.isDigit
  if digits.length < least then none
  else some (Text.digitsValue digits, cs.drop digits.length)

/-- Takes a character off a text. -/
def takeChar? (c : Char) (cs : List Char) : Option (List Char) :=
  match cs with
  | first :: rest => if first == c then some rest else none
  | [] => none

/-- Whether a text has ended; a line feed does not count. -/
def hasEnded (cs : List Char) : Bool := cs.isEmpty || cs == ['\n']

/-- Takes the fraction of a second off a text. -/
def takeFraction (cs : List Char) : List Char × List Char :=
  match cs with
  | '.' :: rest => (rest.takeWhile Char.isDigit, rest.dropWhile Char.isDigit)
  | _ => ([], cs)

/-- The microseconds of a fraction, rounded: a million where that makes a second. -/
def microseconds (fraction : List Char) : Nat :=
  let digits := fraction.take 6
  let micro := Text.digitsValue (digits ++ List.replicate (6 - digits.length) '0')
  if (fraction[6]?.map fun c => decide ('4' < c)).getD false then micro + 1 else micro

/-- The zone at the end of a text, and whether it has a sign. -/
def readZone? (cs : List Char) : Option (Option (Zone × Bool)) :=
  if hasEnded cs then some none
  else
    match cs.dropWhile fun c => c == ' ' || c == '\t' with
    | 'Z' :: rest => if hasEnded rest then some (some (⟨0, "Z"⟩, false)) else none
    | sign :: rest => do
      if sign != '-' && sign != '+' then none
      let (hours, rest') ← takeDigits? 1 2 rest
      let (minutes, last) ← match rest' with
        | ':' :: more => takeDigits? 2 2 more
        | _ => some (0, rest')
      if !hasEnded last then none
      let total : Int := hours * 60 + minutes
      let name := sign :: rest.take (rest.length - last.length)
      return some (⟨if sign == '-' then -total else total, String.ofList name⟩, true)
    | [] => none

/-- The moment that a text writes, if it is one, and why its numbers may be none. -/
def readMoment? (cs : List Char) : Option (Except MomentProblem Moment) := do
  let (year, cs) ← takeDigits? 4 4 cs
  let (month, cs) ← takeDigits? 1 2 (← takeChar? '-' cs)
  let (day, cs) ← takeDigits? 1 2 (← takeChar? '-' cs)
  let date : Moment := { year, month, day }
  if hasEnded cs then return date.check
  let lettered := cs.head? == some 't' || cs.head? == some 'T'
  let blanks := cs.takeWhile fun c => c == ' ' || c == '\t'
  if !lettered && blanks.isEmpty then none
  let (hour, cs) ← takeDigits? 1 2 (cs.drop (if lettered then 1 else blanks.length))
  let (minute, cs) ← takeDigits? 2 2 (← takeChar? ':' cs)
  let (second, cs) ← takeDigits? 2 2 (← takeChar? ':' cs)
  let (fraction, cs) := takeFraction cs
  let zone ← readZone? cs
  let micro := microseconds fraction
  let m : Moment := { date with
    clock := some ⟨hour, minute, second, micro % 1000000⟩
    zone := zone.map (·.1)
    lettered
    stamped := lettered || (zone.map (·.2)).getD false }
  return do if micro == 1000000 then (← m.check).nextSecond else m.check

/-! ## Bytes -/

/-- A character outside the basic letters, as an escape. -/
def escapedChar (c : Char) : String :=
  let n := c.toNat
  if n ≤ 0xFF then "\\x" ++ String.ofList (Text.hexDigits 2 n)
  else if n ≤ 0xFFFF then "\\u" ++ String.ofList (Text.hexDigits 4 n)
  else "\\U" ++ String.ofList (Text.hexDigits 8 n)

/-- How it is reported that a text has characters beyond the basic letters, if it has. -/
def notAscii? (cs : List Char) : Option String :=
  let isOther (c : Char) : Bool := 127 < c.toNat
  let start := (cs.takeWhile (!isOther ·)).length
  match (cs.drop start).takeWhile isOther with
  | [] => none
  | [c] => some ("'ascii' codec can't encode character '" ++ escapedChar c ++ "' in position "
      ++ toString start ++ ": ordinal not in range(128)")
  | run => some ("'ascii' codec can't encode characters in position " ++ toString start ++ "-"
      ++ toString (start + run.length - 1) ++ ": ordinal not in range(128)")

/-- The bytes that a text writes. -/
def readBytes (cs : List Char) : Except Problem (List UInt8) :=
  match notAscii? cs with
  | some message => .error (.notAscii message)
  | none => (Base64.decode cs).mapError .base64

/-! ## All scalars -/

/-- What a scalar with a core tag denotes, if the tag is one of scalars. `keeping` tells whether
its writing is kept. -/
def denoted? (version : Nat × Nat) (keeping : Bool) (tag : String) (line : Nat) (s : String) :
    Option (Except Fault Denoted) :=
  let failing (outcome : Except Failure Denoted) : Option (Except Fault Denoted) :=
    some (outcome.mapError .failed)
  if tag == coreTag "str" then some (.ok { value := .text s })
  else if tag == coreTag "null" then some (.ok { value := .null, anchored := false })
  else if tag == coreTag "bool" then failing (readBool s)
  else if tag == coreTag "int" then failing (readInt version keeping s)
  else if tag == coreTag "float" then failing (readFloat version keeping s)
  else if tag == coreTag "timestamp" then
    match readMoment? s.toList with
    | none => some (.error (.at line (.timestamp s)))
    | some outcome => failing do
      let m ← outcome.mapError .moment
      let m := if keeping then m else { m with lettered := false, stamped := false }
      return { value := .moment m, anchored := false }
  else if tag == coreTag "binary" then
    some do
      return { value := .bytes (← (readBytes s.toList).mapError (.at line)), anchored := false }
  else none

end MemberOrder.Yaml
