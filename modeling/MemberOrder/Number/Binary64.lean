/-
  Binary floating point numbers of 64 bits, as far as ordering and writing them needs: a
  sign and the 63 lower bits, read as a number. That number grows with the magnitude, so
  values compare like integers. Rounding a quotient is exact arithmetic on naturals.

  Numbers are written with the fewest digits that read back as the same number, and of those
  the nearest, or with a given number of places, a half rounded to the even neighbour.
-/

namespace MemberOrder

/-- A number of the format: the sign, and exponent and fraction as one natural number. -/
structure Binary64 where
  negative : Bool
  magnitude : Nat
  deriving Repr, DecidableEq, Inhabited

namespace Binary64

/-- The magnitude of the infinities. -/
def infinite : Nat := 0x7FF0000000000000

/-- Positive infinity. -/
def infinity : Binary64 := ⟨false, infinite⟩

/-- What is no number: above the infinities. -/
def nan : Binary64 := ⟨false, 0x7FF8000000000000⟩

/-- A quotient rounded to the nearest natural number; a half goes to the even neighbour. -/
def roundDiv (num den : Nat) : Nat :=
  let q := num / den
  let r := num % den
  if 2 * r < den then q
  else if den < 2 * r then q + 1
  else q + q % 2

/-- The numerator and denominator of `num / den / 2 ^ e`. -/
def scaled (num den : Nat) (e : Int) : Nat × Nat :=
  if e < 0 then (num * Nat.pow 2 (-e).toNat, den) else (num, den * Nat.pow 2 e.toNat)

/-- The magnitude nearest to `num / den`, ties to even; infinite when out of range. -/
def nearest (num den : Nat) : Nat :=
  if num == 0 then 0
  else
    let guess : Int := max (-1074) ((num.log2 : Int) - (den.log2 : Int) - 52)
    let (n, d) := scaled num den guess
    let e := if n / d < Nat.pow 2 52 then max (-1074) (guess - 1) else guess
    let (n, d) := scaled num den e
    min infinite ((e + 1074).toNat * Nat.pow 2 52 + roundDiv n d)

/-- The number nearest to `digits * 10 ^ exponent`. -/
def ofDecimal (negative : Bool) (digits : Nat) (exponent : Int) : Binary64 :=
  let size : Int := (digits.log2 : Int)
  if digits == 0 then ⟨negative, 0⟩
  else if 400 < exponent then ⟨negative, infinite⟩
  else if size + 3 * exponent < -1200 then ⟨negative, 0⟩
  else if exponent < 0 then ⟨negative, nearest digits (Nat.pow 10 (-exponent).toNat)⟩
  else ⟨negative, nearest (digits * Nat.pow 10 exponent.toNat) 1⟩

/-- The quotient of two natural numbers. -/
def ofRatio (num den : Nat) : Binary64 := ⟨false, nearest num den⟩

/-- The order key: values compare like these integers, and both zeros have the key zero. -/
def key (x : Binary64) : Int := if x.negative then -x.magnitude else x.magnitude

/-- The order of the values. -/
def order (x y : Binary64) : Ordering := compare x.key y.key

/-- The 64 bits. -/
def bits (x : Binary64) : Nat := (if x.negative then Nat.pow 2 63 else 0) + x.magnitude

/-- Mantissa and exponent of the magnitude: the value is `m * 2 ^ e`. -/
def parts (x : Binary64) : Nat × Int :=
  let biased : Nat := x.magnitude / Nat.pow 2 52
  let fraction : Nat := x.magnitude % Nat.pow 2 52
  if biased == 0 then (fraction, -1074) else (fraction + Nat.pow 2 52, (biased : Int) - 1075)

/-- Whether a number is the integer `n`. -/
def isInt (x : Binary64) (n : Int) : Bool :=
  let (m, e) := x.parts
  let signed : Int := if x.negative then -m else m
  x.magnitude < infinite
    && (if 0 ≤ e then signed * Nat.pow 2 e.toNat == n else signed == n * Nat.pow 2 (-e).toNat)

/-- A multiple of a finite number, rounded toward zero. -/
def truncated (x : Binary64) (factor : Nat) : Int :=
  let (m, e) := x.parts
  let whole := if 0 ≤ e then factor * m * Nat.pow 2 e.toNat else factor * m / Nat.pow 2 (-e).toNat
  if x.negative then -whole else whole

/-! ## Shortest texts -/

/-- The decimal exponent of `num / den`: the `k` with `10 ^ k ≤ num / den < 10 ^ (k + 1)`,
searched upwards from `k` for at most `fuel` steps. -/
def decimalExponent (num den : Nat) : (fuel : Nat) → (k : Int) → Int
  | 0, k => k
  | fuel + 1, k =>
    let next := k + 1
    let fits :=
      if next < 0 then num * Nat.pow 10 (-next).toNat < den
      else num < den * Nat.pow 10 next.toNat
    if fits then k else decimalExponent num den fuel next

/-- The number of steps of a grid below `n / d` and the number nearest to it; halfway between
two, the even one is nearest. -/
def gridSteps (n d : Nat) : Nat × Nat :=
  let below := n / d
  let twice := 2 * (n % d)
  if twice < d || (twice == d && below % 2 == 0) then (below, below) else (below, below + 1)

/-- The candidate with `count` digits: the digits and the decimal exponent of the last one. -/
def candidate? (x : Binary64) (num den : Nat) (top : Int) (count : Nat) : Option (Nat × Int) :=
  let low : Int := top - count + 1
  let (below, nearer) :=
    if low < 0 then gridSteps (num * Nat.pow 10 (-low).toNat) den
    else gridSteps num (den * Nat.pow 10 low.toNat)
  let readsBack (digits : Nat) := (ofDecimal false digits low).magnitude == x.magnitude
  let other := if nearer == below then below + 1 else below
  if readsBack nearer then some (nearer, low)
  else if readsBack other then some (other, low)
  else none

/-- The fewest digits that read back, with the exponent of the last one. -/
def shortestDigits (x : Binary64) : Nat × Int :=
  let (m, e) := x.parts
  let (num, den) := if e < 0 then (m, Nat.pow 2 (-e).toNat) else (m * Nat.pow 2 e.toNat, 1)
  let top := decimalExponent num den 640 (-330)
  ((List.range 17).findSome? fun i => candidate? x num den top (i + 1)).getD (0, 0)

/-- Drops the zeros at the end of a digit string. -/
def dropZeros (ds : List Char) : List Char := (ds.reverse.dropWhile (· == '0')).reverse

/-- The digits of a natural number. -/
def digitsOf (n : Nat) : List Char := Nat.toDigits 10 n

/-- The text of a finite magnitude. -/
def finiteText (x : Binary64) : List Char :=
  if x.magnitude == 0 then ['0', '.', '0']
  else
    let (digits, low) := shortestDigits x
    let ds := digitsOf digits
    let point : Int := low + ds.length
    let ds := dropZeros ds
    let count := ds.length
    if -4 < point && point ≤ 16 then
      if point ≤ 0 then ['0', '.'] ++ List.replicate (-point).toNat '0' ++ ds
      else if (count : Int) ≤ point then
        ds ++ List.replicate (point - count).toNat '0' ++ ['.', '0']
      else ds.take point.toNat ++ ['.'] ++ ds.drop point.toNat
    else
      let exponent := point - 1
      let written := digitsOf exponent.natAbs
      let written := if written.length < 2 then '0' :: written else written
      let mantissa := match ds with
        | d :: [] => [d]
        | d :: rest => d :: '.' :: rest
        | [] => []
      mantissa ++ ['e', if exponent < 0 then '-' else '+'] ++ written

/-- The text of a number. -/
def text (x : Binary64) : String :=
  let body :=
    if x.magnitude == infinite then ['i', 'n', 'f']
    else if infinite < x.magnitude then ['n', 'a', 'n']
    else finiteText x
  String.ofList (if x.negative && x.magnitude ≤ infinite then '-' :: body else body)

/-! ## Texts with a given number of places -/

/-- The exact magnitude of a finite number as a quotient. -/
def ratio (x : Binary64) : Nat × Nat :=
  let (m, e) := x.parts
  if e < 0 then (m, Nat.pow 2 (-e).toNat) else (m * Nat.pow 2 e.toNat, 1)

/-- The whole part of the magnitude. -/
def whole (x : Binary64) : Nat :=
  let (num, den) := x.ratio
  num / den

/-- Digits with zeros in front. -/
def paddedDigits (width n : Nat) : List Char :=
  let ds := digitsOf n
  List.replicate (width - ds.length) '0' ++ ds

/-- The magnitude with a number of decimal places; without a point when there are none. -/
def fixedText (x : Binary64) (places : Nat) : List Char :=
  let (num, den) := x.ratio
  let ds := paddedDigits (places + 1) (roundDiv (num * Nat.pow 10 places) den)
  let count := ds.length - places
  if places == 0 then ds else ds.take count ++ ['.'] ++ ds.drop count

/-- The digits of the magnitude, one before the point and some places after it, and the
exponent. -/
def scientific (x : Binary64) (places : Nat) : Nat × Int :=
  if x.magnitude == 0 then (0, 0)
  else
    let (num, den) := x.ratio
    let top := decimalExponent num den 640 (-330)
    let low : Int := top - places
    let digits :=
      if low < 0 then roundDiv (num * Nat.pow 10 (-low).toNat) den
      else roundDiv num (den * Nat.pow 10 low.toNat)
    if digits == Nat.pow 10 (places + 1) then (digits / 10, top + 1) else (digits, top)

/-- The magnitude with one digit before the point and some places after it, and the
exponent. -/
def scientificText (x : Binary64) (places : Nat) : List Char × Int :=
  let (digits, exponent) := x.scientific places
  let ds := paddedDigits (places + 1) digits
  (if places == 0 then ds else ds.take 1 ++ ['.'] ++ ds.drop 1, exponent)

/-! ## Sums and multiples -/

/-- The number with the other sign. -/
def negated (x : Binary64) : Binary64 := ⟨!x.negative, x.magnitude⟩

/-- Whether a number is finite. -/
def isFinite (x : Binary64) : Bool := x.magnitude < infinite

/-- A multiple of a number. -/
def times (x : Binary64) (n : Nat) : Binary64 :=
  if !x.isFinite then x
  else
    let (num, den) := x.ratio
    ⟨x.negative, nearest (n * num) den⟩

/-- The sum of two numbers. -/
def plus (x y : Binary64) : Binary64 :=
  if !x.isFinite then (if !y.isFinite && x.negative != y.negative then nan else x)
  else if !y.isFinite then y
  else
    let (a, b) := x.ratio
    let (c, d) := y.ratio
    let signed (negative : Bool) (n : Nat) : Int := if negative then -n else n
    let sum := signed x.negative (a * d) + signed y.negative (c * b)
    ⟨if sum == 0 then x.negative && y.negative else sum < 0, nearest sum.natAbs (b * d)⟩

end Binary64

end MemberOrder
