/-
  Texts as arrays of characters addressed by offsets, and the operations on character
  lists and strings that the rest of the library shares: cutting, searching, trimming,
  splitting and joining. Offsets count code points.
-/
import MemberOrder.Text.CodeRange

namespace MemberOrder

/-- A text addressed by code point offsets. -/
abbrev Text := Array Char

namespace Text

/-! ## Texts -/

/-- The characters of a string. -/
def ofString (s : String) : Text := s.toList.toArray

/-- The string with these characters. -/
def string (t : Text) : String := String.ofList t.toList

/-- The characters from `start` up to `stop`, as far as the text reaches. -/
def slice (t : Text) (start stop : Nat) : List Char := (t.extract start stop).toList

/-- The slice as a string. -/
def cut (t : Text) (start stop : Nat) : String := String.ofList (t.slice start stop)

/-- Whether the character at an offset passes a test. No offset past the end does. -/
def testAt (t : Text) (i : Nat) (test : Char → Bool) : Bool :=
  match t[i]? with
  | some c => test c
  | none => false

/-- Whether the character `c` stands at the offset. -/
def hasAt (t : Text) (i : Nat) (c : Char) : Bool := t.testAt i (· == c)

/-- Whether the characters `needle` stand at the offset. -/
def standsAt (t : Text) : (i : Nat) → (needle : List Char) → Bool
  | _, [] => true
  | i, c :: rest => t.hasAt i c && t.standsAt (i + 1) rest

/-- The first of the next `count` offsets, from `i` on, that passes a test. -/
def firstFrom (test : Nat → Bool) : (count i : Nat) → Option Nat
  | 0, _ => none
  | count + 1, i => if test i then some i else firstFrom test count (i + 1)

/-- Where `needle` first stands at `i` or later. -/
def find? (t : Text) (needle : List Char) (i : Nat) : Option Nat :=
  firstFrom (t.standsAt · needle) (t.size - i) i

/-- The first of the next `fuel` offsets that holds no white space, or the one after them. -/
def skipSpaces (t : Text) (limit : Nat) : (fuel i : Nat) → Nat
  | 0, i => i
  | fuel + 1, i =>
    if i < limit && t.testAt i isSpace then t.skipSpaces limit fuel (i + 1) else i

/-- The first offset from `i` on that holds no white space, or `limit`. -/
def nextCode (t : Text) (i limit : Nat) : Nat := t.skipSpaces limit (limit - i) i

/-- The offset just past the last character before `i` that is no white space, or `floor`. -/
def prevCode (t : Text) (floor : Nat) : (i : Nat) → Nat
  | 0 => 0
  | i + 1 => if floor < i + 1 && t.testAt i isSpace then t.prevCode floor i else i + 1

/-! ## Character lists -/

/-- Drops white space in front. -/
def trimLeft (cs : List Char) : List Char := cs.dropWhile isSpace

/-- Drops white space at the end. -/
def trimRight (cs : List Char) : List Char := (cs.reverse.dropWhile isSpace).reverse

/-- Drops white space on both sides. -/
def trim (cs : List Char) : List Char := trimRight (trimLeft cs)

/-- Whether there is nothing but white space. -/
def isBlank (cs : List Char) : Bool := cs.all isSpace

/-- The pieces between the separators; one more piece than there are separators. -/
def splitAt (isSeparator : Char → Bool) : List Char → List (List Char)
  | [] => [[]]
  | c :: rest =>
    let pieces := splitAt isSeparator rest
    if isSeparator c then [] :: pieces
    else match pieces with
      | piece :: more => (c :: piece) :: more
      | [] => [[c]]

/-- The lines of a text: the pieces between line feeds. -/
def lines (cs : List Char) : List (List Char) := splitAt (· == '\n') cs

/-- The runs of characters that are no white space. -/
def words (cs : List Char) : List (List Char) := (splitAt isSpace cs).filter (!·.isEmpty)

/-- Joins pieces with a separator between them. -/
def join (separator : List Char) : List (List Char) → List Char
  | [] => []
  | [piece] => piece
  | piece :: rest => piece ++ separator ++ join separator rest

/-- The words with one blank between them. -/
def collapse (cs : List Char) : List Char := join [' '] (words cs)

/-- Whether `needle` occurs. -/
def contains (needle : List Char) : List Char → Bool
  | [] => needle.isEmpty
  | c :: rest => needle.isPrefixOf (c :: rest) || contains needle rest

/-- Extends a text with blanks to a width. -/
def padRight (width : Nat) (cs : List Char) : List Char :=
  cs ++ List.replicate (width - cs.length) ' '

/-! ## Strings -/

/-- Drops white space on both sides. -/
def strip (s : String) : String := String.ofList (trim s.toList)

/-- The words with one blank between them. -/
def squeeze (s : String) : String := String.ofList (collapse s.toList)

/-- Whether a string starts with another. -/
def startsWith (s start : String) : Bool := start.toList.isPrefixOf s.toList

/-- Whether a string ends with another. -/
def endsWith (s tail : String) : Bool := tail.toList.isSuffixOf s.toList

/-- Whether `needle` occurs in a string. -/
def occursIn (needle s : String) : Bool := contains needle.toList s.toList

/-- Joins strings with a separator between them. -/
def joinStrings (separator : String) (pieces : List String) : String :=
  String.ofList (join separator.toList (pieces.map String.toList))

end Text

end MemberOrder
